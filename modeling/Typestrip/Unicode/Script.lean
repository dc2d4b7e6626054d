import Typestrip.Unicode.Runs

/-!
# Scripts of characters

Every code point belongs to exactly one script, or to one of the values that stand for several
scripts, for marks that take the script of what they are put on, and for none (Unicode, version 15).
-/

namespace Typestrip.Unicode.Script

/-- The runs of code points of one script. -/
def table : Runs := Runs.read 2 [
  "aa65ab26aa6ab26aa47abaa15abaa5ab23aaab31aaab449aa39ab5aa5ac2aa20ad112ae4aaae3af2ae4aaaeaf4ae",
  "aaaeaaae3afaeafae20afae63ag14ae16ah133ad2ah169afai38af2ai50af2ai3afaj55af8aj27af4aj6af11ak5a",
  "aak6aaak14aaak3aaak32aaak10ad11ak26adak108aaak34al14afal60af2al3ak48am50af14an59af2an3ao46af",
  "2ao15afap28af2apafal11af5ak31afak2af6ak74aaak29aq81ad4aq15aa2aq26ar4afar8af2ar2af2ar22afar7a",
  "faraf3ar4af2ar9af2ar2af2ar4af8araf4ar2afar5af2ar25af2as3afas6af4as2af2as22afas7afas2afas2afa",
  "s2af2asafas5af4as2af2as3af3asaf7as4afasaf7as17af10at3afat9afat3afat22afat7afat2afat5af2at10a",
  "fat3afat3af2ataf15at4af2at12af7at7afau3afau8af2au2af2au22afau7afau2afau5af2au9af2au2af2au3af",
  "7au3af4au2afau5af2au18af10av2afav6af3av3afav4af3av2afavafav2af3av2af3av3af3av12af4av5af3av3a",
  "fav4af2avaf6avaf14av21af5aw13afaw3afaw23afaw16af2aw9afaw3afaw4af7aw2afaw3af2awaf2aw4af2aw10a",
  "f7aw9ax13afax3afax23afax10afax5af2ax9afax3afax4af7ax2af6ax2afax4af2ax10afax3af12ay13afay3afa",
  "y51afay3afay6af4ay16af2ay26afaz3afaz18af3az24afaz9afazaf2az7af3azaf4az6afazafaz8af6az10af2az",
  "3af12aA58af4aaaA28af37aB2afaBafaB5afaB24afaBafaB23af2aB5afaBafaB7afaB10af2aB4af32aC72afaC36a",
  "f4aC39afaC36afaC15afaC7aa4aC2af37aD160aE38afaEaf5aEaf2aE43aaaE4aF256aG73afaG4af2aG7afaGafaG4",
  "af2aG41afaG4af2aG33afaG4af2aG7afaGafaG4af2aG15afaG57afaG4af2aG67af2aG32af3aG26af6aH86af2aH6a",
  "f2aI640aJ29af3aK75aa3aK11af7aL22af9aLaM21aa2af9aN20af12aO13afaO3afaO2af12aP94af2aP10af6aP10a",
  "f6aQ2aa2aQaaaQ20af6aQ89af7aQ43af5aI70af10aR31afaR12af4aR12af4aRaf3aR12aS30af2aS5af11aT44af4a",
  "T26af6aT11af3aT2aP32aU28af2aU2aV63afaV29af2aV11af6aV10af6aV14af2ad31af49aW77af3aW47afaX64aY5",
  "2af8aY4aZ56af3aZ15af3aZ3ba48ah9af7aE43af2aE3aX8af8ad3aaad13aaad7aa4adaa6adaa3ad2aaaf5ab38ae5",
  "ahab49ae5ab4ae5ab13ahab70aead64ab256ae22af2ae6af2ae38af2ae6af2ae8afaeafaeafaeafae31af2ae53af",
  "ae15afae14af2ae6afae19af2ae3afae9afaa12ad2aa87afaa11abaf2aa11abaa15afab13af3aa33af15ad33af15",
  "aa38aeaa3ab2aa6abaa27abaa17ab41aa3af4aa663af25aa11af21aa928bb256aa628af2aa32afaa105bc96ab32a",
  "g116af5ag7aE38afaEaf5aEaf2bd56af7bd2af14bdaG23af9aG7afaG7afaG7afaG7afaG7afaG7afaG7afaG7afah3",
  "2aa94af34be26afbe89af12be214af26aa12af4aa5beaabeaa25be9ad4aF2aa8be4aa4afbf86af2ad2aa2bf3aabg",
  "90aa2bg3af5ac43afaF94afaa16ac32aa36af12bg16aF31afaa64aF31aa81bg47aabg88aa168be6592aa64be2099",
  "2bh1165af3bh55af9bi48bj300af20ah96bk88af8aa34ab102aa3ab64af5ab2afabafab5af24ab14bl45af3aa10a",
  "f6bm56af8bn70af8bn12af6aq32bo46aabobp36af11bpaF29af3bq78afaabq10af4bq2aD31afbr55af9br14af2br",
  "10af2br4aD32bs67af24bs5bt23af10aG6af2aG6af2aG6af9aG7afaG7afab43aaab9aeab4aa2af4aH80bt46af2bt",
  "10af6aF11172af12aF23af4aF49af8452be366af2be106af38ab7af12ai5af5aj26afaj5afajafaj2afaj2afaj10",
  "ak115af16ak363aa2ak80af2ak54af7akaf32ak16ad16aa10af6ad14ah2aa35afaa19afaa4af4ak5afak135af2aa",
  "afaa32ab26aa6ab26aa11bg10aabg45aa2aF31af3aF6af2aF6af2aF6af2aF3af3aa7afaa7af10aa5af2bu12afbu2",
  "6afbu19afbu2afbu15af2bu14af34bu123af5aa3af4aa45af3aa9ae79afaa13af3aeaf47aa45adaf130bv29af3bw",
  "49af15adaa27af4bx36af9bx3by27af5bz43af5bA30afbAbB36af4bB14af42bC80bD48bE30af2bE10af6bF36af4b",
  "F36af4bG40af8bH52af11bHbI11afbI15afbI7afbI2afbI11afbI15afbI7afbI2af67bJ311af9bJ22af10bJ8af24",
  "ab6afab42afab9af69bK6af2bKafbK44afbK2af3bKaf2bKbL22afbL9bM32bN31af8bN9af48bO19afbO2af5bO5bP2",
  "8af3bPbQ26af5bQaf64bR32bS24af4bS20af2bS46bT4afbT2af5bT8afbT3afbT29af2bT3af4bT10af7bT9af7bU32",
  "bV32af32bW39af4bW12af9bX54af3bX7bY22af2bY8bZ19af5bZ8ca18af7ca4af12ca7af80cb73af55cc51af13cc5",
  "1af7cc6cd40af8cd10af294ak31afce42afce3af2ce2af75ak3cf40af8cg42af22ch26af38ci28af20cj23af9ck7",
  "8af4ck36af9ckcl67af10claf2cm25af7cm10af6cn53afcn18af8co39af9cp96afaz20af11cq18afcq47af62cr7a",
  "fcrafcr4afcr15afcr11af6cs59af5cs10af6ct4afct8af2ct2af2ct22afct7afct2afct5afadct9af2ct2af2ct3",
  "af2ctaf6ctaf5ct7af2ct7af3ct5af139cu92afcu5af30cv72af8cv10af166cw54af2cw38af34cx69af11cx10af6",
  "aQ13af19cy58af6cy10af54cz27af2cz15af4cz23af185cA60af100cB83af12cBcC7af2cCaf2cC8afcC2afcC30af",
  "cC2af2cC12af9cC10af70cD8af2cD46af2cD11af27cE72af8cF83af13aI16cG57af7aq10af246cH9afcH45afcH14",
  "af10cH29af3cI32af2cI22afcI14af73cJ7afcJ2afcJ44af3cJafcJ2afcJ9af8cJ10af6cK6afcK2afcK37afcK2af",
  "cK6af7cK10af310cL25af7cM17afcM41af3cM28af86biaf15av50af13avcN922af102cN111afcN5af11cN196af26",
  "36cO99af13cP1110af4010cQ583af8633bk569af7cR31afcR10af4cR2cS79afcS10af6cT30af2cT6af10cU70af10",
  "cU10afcU7afcU21af5cU19af688cV91af101cW75af4cW57af7cW17af64cXcYbe2cZaf11be2af14cX6136af8cX768",
  "cZ470af42cX9af8935bg4afbg7afbg2afbgbf287bg3af15bfaf29bf3af2bgaf14bg4af8cY396af2308da107af5da",
  "13af3da9af7da10af2da4aa4af4700ad46af2ad23af9aa116af60aa246af10aa39af2aa62ad3aa17ad8aa2ad7aa3",
  "0ad4aa61af21ae70af122aa20af12aa20af12aa87af9aa25af135aa85afaa71afaa2af2aaaf2aa2af2aa4afaa12a",
  "faaafaa7afaa65afaa4af2aa8afaa7afaa28afaa4afaa5afaaaf3aa7afaa340af2aa292af2aa50db652af15db5af",
  "db15af1104ab31af6ab6af213bc7afbc17af2bc7afbc2afbc5af5ah62af33ahaf112dc45af3dc14af2dc10af4dc2",
  "af320dd31af17de58af5deaf464df42af742aG7afaG4afaG2afaG15afdg197af2dg16af41dh76af4dh10af4dh2af",
  "785aa68af76aa61af194ak4afak27afak2afakaf2akafak10afak4afakafakaf6akaf4akafakafakafak3afak2af",
  "akaf2akafakafakafakafakafak2afakaf2ak4afak7afak4afak4afakafak10afak17af5ak3afak5afak17af52ak",
  "2af270aa44af4aa100af12aa15af2aa15afaa15afaa37af10aa174af56aa26bfaa2af13aa44af4aa9af7aa2af14a",
  "a6af154aa984af4aa17af3aa13af3aa119af4aa95af6aa12af4aaaf15aa12af4aa56af8aa10af6aa40af8aa30af2",
  "aa2af78aa340af12aa14af2aa13af3aa9af7aa46afaa7af8aa14af4aa9af7aa9af7aa147afaa55af37aa10af1030",
  "be42720af32be4154af6be222af2be5762af14be7473af3103be542af1506be4939af5be4192af711761aaaf30aa",
  "96af128ad240af196112"]

/-- The names of each script, without capitals and separators, and its index in `table`. -/
def names : List (List String × Nat) := [
  (["zyyy", "common"], 0), (["latn", "latin"], 1), (["bopo", "bopomofo"], 2),
  (["zinh", "inherited", "qaai"], 3), (["grek", "greek"], 4), (["zzzz", "unknown"], 5),
  (["copt", "coptic", "qaac"], 6), (["cyrl", "cyrillic"], 7), (["armn", "armenian"], 8),
  (["hebr", "hebrew"], 9), (["arab", "arabic"], 10), (["syrc", "syriac"], 11),
  (["thaa", "thaana"], 12), (["nkoo", "nko"], 13), (["samr", "samaritan"], 14),
  (["mand", "mandaic"], 15), (["deva", "devanagari"], 16), (["beng", "bengali"], 17),
  (["guru", "gurmukhi"], 18), (["gujr", "gujarati"], 19), (["orya", "oriya"], 20),
  (["taml", "tamil"], 21), (["telu", "telugu"], 22), (["knda", "kannada"], 23),
  (["mlym", "malayalam"], 24), (["sinh", "sinhala"], 25), (["thai", "thai"], 26),
  (["laoo", "lao"], 27), (["tibt", "tibetan"], 28), (["mymr", "myanmar"], 29),
  (["geor", "georgian"], 30), (["hang", "hangul"], 31), (["ethi", "ethiopic"], 32),
  (["cher", "cherokee"], 33), (["cans", "canadianaboriginal"], 34), (["ogam", "ogham"], 35),
  (["runr", "runic"], 36), (["tglg", "tagalog"], 37), (["hano", "hanunoo"], 38),
  (["buhd", "buhid"], 39), (["tagb", "tagbanwa"], 40), (["khmr", "khmer"], 41),
  (["mong", "mongolian"], 42), (["limb", "limbu"], 43), (["tale", "taile"], 44),
  (["talu", "newtailue"], 45), (["bugi", "buginese"], 46), (["lana", "taitham"], 47),
  (["bali", "balinese"], 48), (["sund", "sundanese"], 49), (["batk", "batak"], 50),
  (["lepc", "lepcha"], 51), (["olck", "olchiki"], 52), (["brai", "braille"], 53),
  (["glag", "glagolitic"], 54), (["tfng", "tifinagh"], 55), (["hani", "han"], 56),
  (["hira", "hiragana"], 57), (["kana", "katakana"], 58), (["yiii", "yi"], 59),
  (["lisu", "lisu"], 60), (["vaii", "vai"], 61), (["bamu", "bamum"], 62),
  (["sylo", "sylotinagri"], 63), (["phag", "phagspa"], 64), (["saur", "saurashtra"], 65),
  (["kali", "kayahli"], 66), (["rjng", "rejang"], 67), (["java", "javanese"], 68),
  (["cham", "cham"], 69), (["tavt", "taiviet"], 70), (["mtei", "meeteimayek"], 71),
  (["linb", "linearb"], 72), (["lyci", "lycian"], 73), (["cari", "carian"], 74),
  (["ital", "olditalic"], 75), (["goth", "gothic"], 76), (["perm", "oldpermic"], 77),
  (["ugar", "ugaritic"], 78), (["xpeo", "oldpersian"], 79), (["dsrt", "deseret"], 80),
  (["shaw", "shavian"], 81), (["osma", "osmanya"], 82), (["osge", "osage"], 83),
  (["elba", "elbasan"], 84), (["aghb", "caucasianalbanian"], 85), (["vith", "vithkuqi"], 86),
  (["lina", "lineara"], 87), (["cprt", "cypriot"], 88), (["armi", "imperialaramaic"], 89),
  (["palm", "palmyrene"], 90), (["nbat", "nabataean"], 91), (["hatr", "hatran"], 92),
  (["phnx", "phoenician"], 93), (["lydi", "lydian"], 94), (["mero", "meroitichieroglyphs"], 95),
  (["merc", "meroiticcursive"], 96), (["khar", "kharoshthi"], 97),
  (["sarb", "oldsoutharabian"], 98), (["narb", "oldnortharabian"], 99),
  (["mani", "manichaean"], 100), (["avst", "avestan"], 101),
  (["prti", "inscriptionalparthian"], 102), (["phli", "inscriptionalpahlavi"], 103),
  (["phlp", "psalterpahlavi"], 104), (["orkh", "oldturkic"], 105), (["hung", "oldhungarian"], 106),
  (["rohg", "hanifirohingya"], 107), (["yezi", "yezidi"], 108), (["sogo", "oldsogdian"], 109),
  (["sogd", "sogdian"], 110), (["ougr", "olduyghur"], 111), (["chrs", "chorasmian"], 112),
  (["elym", "elymaic"], 113), (["brah", "brahmi"], 114), (["kthi", "kaithi"], 115),
  (["sora", "sorasompeng"], 116), (["cakm", "chakma"], 117), (["mahj", "mahajani"], 118),
  (["shrd", "sharada"], 119), (["khoj", "khojki"], 120), (["mult", "multani"], 121),
  (["sind", "khudawadi"], 122), (["gran", "grantha"], 123), (["newa", "newa"], 124),
  (["tirh", "tirhuta"], 125), (["sidd", "siddham"], 126), (["modi", "modi"], 127),
  (["takr", "takri"], 128), (["ahom", "ahom"], 129), (["dogr", "dogra"], 130),
  (["wara", "warangciti"], 131), (["diak", "divesakuru"], 132), (["nand", "nandinagari"], 133),
  (["zanb", "zanabazarsquare"], 134), (["soyo", "soyombo"], 135), (["pauc", "paucinhau"], 136),
  (["bhks", "bhaiksuki"], 137), (["marc", "marchen"], 138), (["gonm", "masaramgondi"], 139),
  (["gong", "gunjalagondi"], 140), (["maka", "makasar"], 141), (["kawi", "kawi"], 142),
  (["xsux", "cuneiform"], 143), (["cpmn", "cyprominoan"], 144),
  (["egyp", "egyptianhieroglyphs"], 145), (["hluw", "anatolianhieroglyphs"], 146),
  (["mroo", "mro"], 147), (["tnsa", "tangsa"], 148), (["bass", "bassavah"], 149),
  (["hmng", "pahawhhmong"], 150), (["medf", "medefaidrin"], 151), (["plrd", "miao"], 152),
  (["tang", "tangut"], 153), (["nshu", "nushu"], 154), (["kits", "khitansmallscript"], 155),
  (["dupl", "duployan"], 156), (["sgnw", "signwriting"], 157),
  (["hmnp", "nyiakengpuachuehmong"], 158), (["toto", "toto"], 159), (["wcho", "wancho"], 160),
  (["nagm", "nagmundari"], 161), (["mend", "mendekikakui"], 162), (["adlm", "adlam"], 163)]

/-- The index of the script with the given name. -/
def ofName? (name : String) : Option Nat := (names.find? (·.1.contains name)).map (·.2)

/-- The index of the script of a character. -/
def of (c : Char) : Nat := table.lookup c.toNat

end Typestrip.Unicode.Script
