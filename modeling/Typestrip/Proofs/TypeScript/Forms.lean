import Typestrip.Proofs.Grammar.Forms
import Typestrip.Proofs.TypeScript.Nodes

/-!
# The forms of the grammar

The grammar without the identities of its nodes: the form of each of its parts, and the forms of the
bodies of its rules (`Form.rules`). `grammar_forms` says that the grammar has these forms.
-/

namespace Typestrip.TypeScript

open Grammar

namespace Form

open Grammar.Form

/-! ## Words and groups -/

def blanks : Node := regex "\\s*"

def someBlanks : Node := regex "\\s+"

def identifier : Node := regex "[A-Za-z_$][A-Za-z0-9_$]*"

def string : Node := regex stringSource

def comment : Node := regex "//[^\\n]*|/\\*[\\s\\S]*?\\*/"

def terminator : Node := nullable (regex "[ \\t]*;")

def words : Words := ⟨blanks, someBlanks, identifier, string, comment, terminator⟩

/-- Anything but brackets and strings. -/
def chunk : Node := regex "[^()\\[\\]\x7b\x7d\"'`]+"

/-- A group between two marks. -/
def enclosed (opening closing : String) : Node :=
  sequence [literal opening, repetition (choice [string, reference "group", chunk]), literal closing]

def group : Node := choice [reference "parens", reference "brackets", reference "braces"]

def angles : Node :=
  sequence [literal "<", repetition (choice [regex "[^<>]+", reference "angles"]), literal ">"]

def groups : Groups :=
  ⟨reference "parens", reference "braces", reference "group", reference "angles"⟩

def groupRules : List (String × Node) :=
  [("parens", enclosed "(" ")"), ("brackets", enclosed "[" "]"), ("braces", enclosed "\x7b" "\x7d"),
    ("group", group), ("angles", angles)]

/-! ## Types and parameters -/

def primary : Node :=
  choice [reference "group", string, regex "-?[0-9]+(?:\\.[0-9]+)?",
    sequence [regex typeNameSource, nullable (sequence [blanks, reference "angles"])]]

def arraySuffix : Node := regex "(?:\\s*\\[\\])*"

def functionReturn : Node :=
  nullable (sequence [blanks, literal "=>", blanks, reference "type"])

/-- Terms with bars between them. -/
def union (term : Node) : Node :=
  sequence [regex "(?:\\|\\s*)?", term,
    repetition (sequence [blanks, regex "[|&]", blanks, term])]

def type : Node := union (sequence [reference "type_primary", arraySuffix, functionReturn])

def arrowReturn : Node := union (sequence [reference "type_primary", arraySuffix])

def annotation : Node := nullable (sequence [blanks, literal ":", blanks, reference "type"])

def types : Types := ⟨reference "type", reference "arrow_return_type", annotation⟩

def typeRules : List (String × Node) :=
  [("type_primary", primary), ("type", type), ("arrow_return_type", arrowReturn)]

/-- One or more of some pieces. -/
def run (pieces : List Node) : Node :=
  map renderRun (sequence
    [capture "head" (choice pieces), capture "tail" (repetition (choice pieces))])

/-- The default value of a parameter. -/
def default : Node :=
  run [string, reference "group", regex "[^,;\x7b\x7d()\\[\\]\"'`\\n/]+"]

def param : Node :=
  map renderParam (sequence
    [capture "name" (choice [regex "(?:\\.\\.\\.)?[A-Za-z_$][A-Za-z0-9_$]*", reference "group"]),
      nullable (regex "\\s*\\?"), annotation,
      capture "default" (nullable (sequence [blanks, literal "=", blanks, capture "value" default]))])

/-- A parameter behind a comma. -/
def furtherParam : Node :=
  map (field "param") (sequence [blanks, literal ",", blanks, capture "param" param])

def params : Node :=
  nullable (map renderParams (sequence
    [capture "first" param, capture "rest" (repetition furtherParam),
      nullable (sequence [blanks, literal ","])]))

/-! ## Expressions -/

/-- Something that is applied to what comes after it. -/
def joined (lead rest : Node) : Node :=
  map renderJoined (sequence [capture "lead" (map reindent lead), capture "rest" rest])

def arrowHead : Node :=
  map renderArrowHead (sequence
    [literal "(", blanks, capture "params" params, blanks, literal ")",
      nullable (sequence [blanks, literal ":", blanks, reference "arrow_return_type"]), blanks,
      literal "=>"])

def blockComment : Node := regex "/\\*[\\s\\S]*?\\*/"

def word : Node := regex wordSource

def regexLiteral : Node := regex regexSource

/-- What an expression consists of besides operators. -/
def operands : List Node :=
  [string, blockComment, arrowHead, reference "group", word, regexLiteral]

def operator : Node := regex "(?:[-+*%&|^<>=?:,.]+(?:\\s|//[^\\n]*)*)+"

def slash : Node := regex "/=?\\s*(?:[-+]\\s*)*"

def lineBreak : Node := regex "[ \\t]*\\r?\\n\\s*"

def operation : Node := joined operator (choice operands)

def division : Node := joined slash (choice operands)

/-- An operation in the next line. -/
def nextLine : Node := joined lineBreak operation

def expression : Node := map trimmed (run (operands ++ [division, operation, nextLine]))

/-! ## Statements -/

def interface : Node :=
  map erase (sequence [regex "(?:export\\s+)?(?:declare\\s+)?interface\\b", someBlanks, identifier,
    blanks, nullable (reference "angles"), blanks, nullable (regex "extends\\b[^\x7b]*"),
    reference "braces"])

def typeAlias : Node :=
  map erase (sequence [regex "(?:export\\s+)?(?:declare\\s+)?type\\b", someBlanks, identifier,
    blanks, nullable (reference "angles"), blanks, literal "=", blanks, reference "type",
    terminator])

def typeOnly : Node :=
  map erase (sequence [regex "(?:import|export)\\s+type\\b[^;\\n]*", terminator])

def ambient : Node :=
  map erase (sequence [regex "(?:export\\s+)?declare\\b[^;\x7b\\n]*", nullable (reference "braces"),
    terminator])

/-- The declarations that are erased. -/
def erased : List Node := [interface, typeAlias, typeOnly, ambient]

def function : Node :=
  map renderFunction (sequence
    [capture "head" (regex "(?:export\\s+)?(?:default\\s+)?(?:async\\s+)?function\\b"),
      capture "star" (nullable (regex "\\s*\\*")), blanks, capture "name" (nullable identifier),
      blanks, nullable (reference "angles"), blanks, literal "(", blanks, capture "params" params,
      blanks, literal ")", annotation, blanks, capture "body" (reference "block")])

def otherwise : Node :=
  sequence [blanks, regex "else\\b", blanks, capture "statement" (reference "statement")]

def conditional : Node :=
  map renderIf (sequence
    [regex "if\\b", blanks, capture "test" (reference "parens"), blanks,
      capture "then" (reference "statement"), capture "otherwise" (nullable otherwise)])

def loop : Node :=
  map renderLoop (sequence
    [capture "keyword" (regex "(?:while|for)\\b"), blanks, capture "head" (reference "parens"),
      blanks, capture "body" (reference "statement")])

/-- The value that a variable begins with. -/
def initializer : Node := sequence [blanks, literal "=", blanks, capture "value" expression]

/-- Variable declarations. -/
def binding : Node :=
  map renderVar (sequence
    [capture "kind" (regex "(?:export\\s+)?(?:let|const|var)\\b"), someBlanks,
      capture "name" (choice [identifier, reference "group"]), nullable (regex "!"), annotation,
      capture "init" (nullable initializer), terminator])

def argument : Node := sequence [regex "[ \\t]*", capture "value" expression]

def returned : Node :=
  map renderReturn (sequence [regex "return\\b", capture "argument" (nullable argument), terminator])

/-- An expression that stands as a statement. -/
def standing : Node :=
  map renderExpression (sequence [capture "expression" expression, terminator])

def empty : Node := map erase (literal ";")

def statement : Node :=
  choice ([comment] ++ erased ++
    [function, conditional, loop, binding, returned, reference "block", empty, standing])

/-- Blanks and a statement. -/
def next : Node :=
  map (field "statement") (sequence [blanks, capture "statement" (reference "statement")])

def block : Node :=
  map renderBlock (sequence [literal "\x7b", capture "body" (repetition next), blanks, literal "\x7d"])

def program : Node := map renderProgram (sequence [capture "body" (repetition next), blanks])

def single : Node := sequence [blanks, capture "statement" (reference "statement")]

def statementRules : List (String × Node) := [("block", block), ("statement", statement)]

/-- The rules of the grammar. -/
def rules : List (String × Node) := groupRules ++ (typeRules ++ statementRules)

/-- The forms of the bodies of the rules. -/
def bodies (name : String) : Option Node := rules.lookup name

end Form

/-! ## The parts of the grammar have these forms -/

/-- The forms of words. -/
def Words.form (w : Words) : Words :=
  ⟨w.blanks.form, w.someBlanks.form, w.identifier.form, w.string.form, w.comment.form,
    w.terminator.form⟩

/-- The forms of groups. -/
def Groups.form (g : Groups) : Groups := ⟨g.parens.form, g.braces.form, g.any.form, g.angles.form⟩

/-- The forms of types. -/
def Types.form (t : Types) : Types := ⟨t.any.form, t.arrowReturn.form, t.annotation.form⟩

open Build

theorem makes_words : Makes words [] fun w => w.form = Form.words :=
  .step (makes_regex _) fun _ hblanks => .step (makes_regex _) fun _ hsome =>
    .step (makes_regex _) fun _ hidentifier => .step (makes_regex _) fun _ hstring =>
    .step (makes_regex _) fun _ hcomment => .step (makes_regex _) fun _ hsemicolon =>
    .step (makes_nullable hsemicolon) fun _ hterminator => .pure <| by
      rw [Words.form, hblanks, hsome, hidentifier, hstring, hcomment, hterminator]
      rfl

section

variable {w : Words} {g : Groups} {t : Types}

theorem makes_delimited (hw : w.form = Form.words) {chunk : Node} (hchunk : chunk.form = Form.chunk)
    (name opening closing : String)
    (hapart : Grammar.Form.apart [Grammar.Form.literal opening,
      Grammar.Form.repetition (Grammar.Form.choice
        [Form.string, Grammar.Form.reference "group", Form.chunk]),
      Grammar.Form.literal closing] = true) :
    Makes (delimited w chunk name opening closing) [(name, Form.enclosed opening closing)]
      fun n => n.form = Grammar.Form.reference name :=
  makes_symbol <| .step (makes_literal _) fun _ hopening => .step (makes_reference _) fun _ hgroup =>
    .step (makes_choice (.cons (congrArg Words.string hw) (.cons hgroup (.cons hchunk .nil))))
      fun _ hitem => .step (makes_repetition hitem) fun _ hitems =>
    .step (makes_literal _) fun _ hclosing =>
      makes_sequence (.cons hopening (.cons hitems (.cons hclosing .nil))) hapart

theorem makes_groups (hw : w.form = Form.words) :
    Makes (groups w) Form.groupRules fun g => g.form = Form.groups :=
  .step (makes_regex _) fun _ hchunk => .rule (makes_delimited hw hchunk _ _ _ rfl) fun _ hparens =>
    .rule (makes_delimited hw hchunk _ _ _ rfl) fun _ hbrackets =>
    .rule (makes_delimited hw hchunk _ _ _ rfl) fun _ hbraces =>
    .rule (makes_symbol (makes_choice (.cons hparens (.cons hbrackets (.cons hbraces .nil)))))
      fun _ hany =>
    .rule (makes_symbol (.step (makes_literal _) fun _ hopening =>
      .step (makes_regex _) fun _ hchunk => .step (makes_reference _) fun _ hangles =>
      .step (makes_choice (.cons hchunk (.cons hangles .nil))) fun _ hitem =>
      .step (makes_repetition hitem) fun _ hitems => .step (makes_literal _) fun _ hclosing =>
      makes_sequence (.cons hopening (.cons hitems (.cons hclosing .nil))) rfl)) fun _ hangles =>
    .pure <| by
      rw [Groups.form, hparens, hbraces, hany, hangles]
      rfl

theorem makes_union (hw : w.form = Form.words) {term form : Node} (hterm : term.form = form)
    (name : String) (hapart : Grammar.Form.apart [Form.blanks, Grammar.Form.regex "[|&]",
      Form.blanks, form] = true)
    (hapart' : Grammar.Form.apart [Grammar.Form.regex "(?:\\|\\s*)?", form,
      Grammar.Form.repetition (Grammar.Form.sequence [Form.blanks, Grammar.Form.regex "[|&]",
        Form.blanks, form])] = true) :
    Makes (union w name term) [(name, Form.union form)]
      fun n => n.form = Grammar.Form.reference name :=
  have hblanks := congrArg Words.blanks hw
  makes_symbol <| .step (makes_regex _) fun _ hleading => .step (makes_regex _) fun _ hoperator =>
    .step (makes_sequence (.cons hblanks (.cons hoperator (.cons hblanks (.cons hterm .nil))))
      hapart) fun _ hfurther => .step (makes_repetition hfurther) fun _ hrounds =>
    makes_sequence (.cons hleading (.cons hterm (.cons hrounds .nil))) hapart'

theorem makes_types (hw : w.form = Form.words) (hg : g.form = Form.groups) :
    Makes (types w g) Form.typeRules fun t => t.form = Form.types :=
  have hblanks := congrArg Words.blanks hw
  .rule (makes_symbol (.step (makes_regex _) fun _ hnumber => .step (makes_regex _) fun _ hname =>
      .step (makes_sequence (.cons hblanks (.cons (congrArg Groups.angles hg) .nil)) rfl)
        fun _ harguments => .step (makes_nullable harguments) fun _ harguments =>
      .step (makes_sequence (.cons hname (.cons harguments .nil)) rfl) fun _ hnamed =>
      makes_choice (.cons (congrArg Groups.any hg) (.cons (congrArg Words.string hw)
        (.cons hnumber (.cons hnamed .nil)))))) fun _ hprimary =>
    .step (makes_regex _) fun _ hsuffix => .step (makes_literal _) fun _ harrow =>
    .step (makes_reference _) fun _ htype =>
    .step (makes_sequence (.cons hblanks (.cons harrow (.cons hblanks (.cons htype .nil)))) rfl)
      fun _ hreturn => .step (makes_nullable hreturn) fun _ hreturn =>
    .step (makes_sequence (.cons hprimary (.cons hsuffix (.cons hreturn .nil))) rfl)
      fun _ hterm => .rule (makes_union hw hterm _ rfl rfl) fun _ hany =>
    .step (makes_sequence (.cons hprimary (.cons hsuffix .nil)) rfl) fun _ hterm =>
    .rule (makes_union hw hterm _ rfl rfl) fun _ harrowReturn =>
    .step (makes_literal _) fun _ hcolon =>
    .step (makes_sequence (.cons hblanks (.cons hcolon (.cons hblanks (.cons hany .nil)))) rfl)
      fun _ hannotation => .step (makes_nullable hannotation) fun _ hannotation => .pure <| by
      rw [Types.form, hany, harrowReturn, hannotation]
      rfl

theorem makes_verbatimRun {pieces forms : List Node}
    (h : List.Forall₂ (fun n form => n.form = form) pieces forms) :
    Makes (verbatimRun pieces) [] fun n => n.form = Form.run forms :=
  .step (makes_choice h) fun _ hpiece => .step (makes_capture hpiece _) fun _ hhead =>
    .step (makes_repetition hpiece) fun _ hpieces => .step (makes_capture hpieces _) fun _ htail =>
    .step (makes_sequence (.cons hhead (.cons htail .nil)) rfl) fun _ hrun => makes_map hrun _

theorem makes_parameters (hw : w.form = Form.words) (hg : g.form = Form.groups)
    (ht : t.form = Form.types) :
    Makes (parameters w g t) [] fun n => n.form = Form.params :=
  have hblanks := congrArg Words.blanks hw
  have hany := congrArg Groups.any hg
  .step (makes_regex _) fun _ hplain =>
    .step (makes_verbatimRun (.cons (congrArg Words.string hw) (.cons hany (.cons hplain .nil))))
      fun _ hdefault => .step (makes_regex _) fun _ hidentifier =>
    .step (makes_choice (.cons hidentifier (.cons hany .nil))) fun _ hname =>
    .step (makes_regex _) fun _ hmark => .step (makes_nullable hmark) fun _ hoptional =>
    .step (makes_literal _) fun _ hequals => .step (makes_capture hdefault _) fun _ hvalue =>
    .step (makes_sequence (.cons hblanks (.cons hequals (.cons hblanks (.cons hvalue .nil)))) rfl)
      fun _ hvalue => .step (makes_capture hname _) fun _ hname =>
    .step (makes_nullable hvalue) fun _ hvalue => .step (makes_capture hvalue _) fun _ hvalue =>
    .step (makes_sequence (.cons hname (.cons hoptional (.cons (congrArg Types.annotation ht)
      (.cons hvalue .nil)))) rfl) fun _ hparam => .step (makes_map hparam _) fun _ hparam =>
    .step (makes_literal _) fun _ hcomma => .step (makes_capture hparam _) fun _ hkept =>
    .step (makes_sequence (.cons hblanks (.cons hcomma (.cons hblanks (.cons hkept .nil)))) rfl)
      fun _ hfurther => .step (makes_map hfurther _) fun _ hfurther =>
    .step (makes_literal _) fun _ hcomma =>
    .step (makes_sequence (.cons hblanks (.cons hcomma .nil)) rfl) fun _ htrailing =>
    .step (makes_nullable htrailing) fun _ htrailing =>
    .step (makes_capture hparam _) fun _ hfirst =>
    .step (makes_repetition hfurther) fun _ hrest => .step (makes_capture hrest _) fun _ hrest =>
    .step (makes_sequence (.cons hfirst (.cons hrest (.cons htrailing .nil))) rfl) fun _ hlist =>
    .step (makes_map hlist _) fun _ hlist => makes_nullable hlist

theorem apart_map (f : Value → Value) (n rest : Node) :
    Grammar.Form.apart [Grammar.Form.capture "lead" (Grammar.Form.map f n), rest] = true := by
  cases n with
  | terminal a p => cases p <;> rfl
  | _ => rfl

theorem makes_joined {lead rest leadForm restForm : Node} (hlead : lead.form = leadForm)
    (hrest : rest.form = restForm) :
    Makes (joined lead rest) [] fun n => n.form = Form.joined leadForm restForm :=
  .step (makes_map hlead _) fun _ hlead => .step (makes_capture hlead _) fun _ hlead =>
    .step (makes_capture hrest _) fun _ hrest =>
    .step (makes_sequence (.cons hlead (.cons hrest .nil)) (apart_map ..))
      fun _ hjoined => makes_map hjoined _

theorem makes_arrowHead (hw : w.form = Form.words) (ht : t.form = Form.types) {params : Node}
    (hparams : params.form = Form.params) :
    Makes (arrowHead w t params) [] fun n => n.form = Form.arrowHead :=
  have hblanks := congrArg Words.blanks hw
  .step (makes_literal _) fun _ hcolon =>
    .step (makes_sequence (.cons hblanks (.cons hcolon (.cons hblanks
      (.cons (congrArg Types.arrowReturn ht) .nil)))) rfl) fun _ hreturned =>
    .step (makes_nullable hreturned) fun _ hreturned =>
    .step (makes_literal _) fun _ hopening => .step (makes_capture hparams _) fun _ hparams =>
    .step (makes_literal _) fun _ hclosing => .step (makes_literal _) fun _ harrow =>
    .step (makes_sequence (.cons hopening (.cons hblanks (.cons hparams (.cons hblanks
      (.cons hclosing (.cons hreturned (.cons hblanks (.cons harrow .nil)))))))) rfl)
      fun _ hhead => makes_map hhead _

theorem makes_expressions (hw : w.form = Form.words) (hg : g.form = Form.groups) {arrow : Node}
    (harrow : arrow.form = Form.arrowHead) :
    Makes (expressions w g arrow) [] fun n => n.form = Form.expression :=
  have hstring := congrArg Words.string hw
  have hany := congrArg Groups.any hg
  .step (makes_regex _) fun _ hcomment => .step (makes_regex _) fun _ hregex =>
    .step (makes_regex _) fun _ hword =>
    .step (makes_choice (.cons hstring (.cons hcomment (.cons harrow (.cons hany (.cons hword
      (.cons hregex .nil))))))) fun _ hoperand =>
    .step (makes_regex _) fun _ hoperator => .step (makes_joined hoperator hoperand)
      fun _ hoperation => .step (makes_regex _) fun _ hslash =>
    .step (makes_joined hslash hoperand) fun _ hdivision =>
    .step (makes_regex _) fun _ hbreak => .step (makes_joined hbreak hoperation) fun _ hnext =>
    .step (makes_verbatimRun (.cons hstring (.cons hcomment (.cons harrow (.cons hany (.cons hword
      (.cons hregex (.cons hdivision (.cons hoperation (.cons hnext .nil)))))))))) fun _ hrun =>
    makes_map hrun _

theorem makes_erasedDeclarations (hw : w.form = Form.words) (hg : g.form = Form.groups)
    (ht : t.form = Form.types) :
    Makes (erasedDeclarations w g t) []
      fun ns => List.Forall₂ (fun n form => n.form = form) ns Form.erased :=
  have hblanks := congrArg Words.blanks hw
  have hsome := congrArg Words.someBlanks hw
  have hidentifier := congrArg Words.identifier hw
  have hterminator := congrArg Words.terminator hw
  have hbraces := congrArg Groups.braces hg
  .step (makes_regex _) fun _ hword => .step (makes_nullable (congrArg Groups.angles hg))
      fun _ hangles => .step (makes_regex _) fun _ hextends =>
    .step (makes_nullable hextends) fun _ hextends =>
    .step (makes_sequence (.cons hword (.cons hsome (.cons hidentifier (.cons hblanks (.cons hangles
      (.cons hblanks (.cons hextends (.cons hbraces .nil)))))))) rfl) fun _ hinterface =>
    .step (makes_map hinterface _) fun _ hinterface =>
    .step (makes_regex _) fun _ hword => .step (makes_nullable (congrArg Groups.angles hg))
      fun _ hangles => .step (makes_literal _) fun _ hequals =>
    .step (makes_sequence (.cons hword (.cons hsome (.cons hidentifier (.cons hblanks (.cons hangles
      (.cons hblanks (.cons hequals (.cons hblanks (.cons (congrArg Types.any ht)
        (.cons hterminator .nil)))))))))) rfl) fun _ halias =>
    .step (makes_map halias _) fun _ halias =>
    .step (makes_regex _) fun _ hword =>
    .step (makes_sequence (.cons hword (.cons hterminator .nil)) rfl) fun _ htypeOnly =>
    .step (makes_map htypeOnly _) fun _ htypeOnly =>
    .step (makes_regex _) fun _ hword => .step (makes_nullable hbraces) fun _ hbraces =>
    .step (makes_sequence (.cons hword (.cons hbraces (.cons hterminator .nil))) rfl)
      fun _ hambient => .step (makes_map hambient _) fun _ hambient =>
    .pure (.cons hinterface (.cons halias (.cons htypeOnly (.cons hambient .nil))))

theorem makes_functionDeclaration (hw : w.form = Form.words) (hg : g.form = Form.groups)
    (ht : t.form = Form.types) {params block : Node} (hparams : params.form = Form.params)
    (hblock : block.form = Grammar.Form.reference "block") :
    Makes (functionDeclaration w g t params block) [] fun n => n.form = Form.function :=
  have hblanks := congrArg Words.blanks hw
  .step (makes_regex _) fun _ hhead => .step (makes_regex _) fun _ hstar =>
    .step (makes_nullable hstar) fun _ hstar => .step (makes_capture hhead _) fun _ hhead =>
    .step (makes_capture hstar _) fun _ hstar =>
    .step (makes_nullable (congrArg Words.identifier hw)) fun _ hname =>
    .step (makes_capture hname _) fun _ hname =>
    .step (makes_nullable (congrArg Groups.angles hg)) fun _ hangles =>
    .step (makes_literal _) fun _ hopening => .step (makes_capture hparams _) fun _ hparams =>
    .step (makes_literal _) fun _ hclosing => .step (makes_capture hblock _) fun _ hbody =>
    .step (makes_sequence (.cons hhead (.cons hstar (.cons hblanks (.cons hname (.cons hblanks
      (.cons hangles (.cons hblanks (.cons hopening (.cons hblanks (.cons hparams (.cons hblanks
      (.cons hclosing (.cons (congrArg Types.annotation ht) (.cons hblanks
      (.cons hbody .nil))))))))))))))) rfl) fun _ hfunction => makes_map hfunction _

theorem makes_conditional (hw : w.form = Form.words) (hg : g.form = Form.groups) :
    Makes (conditional w g) [] fun n => n.form = Form.conditional :=
  have hblanks := congrArg Words.blanks hw
  .step (makes_regex _) fun _ helse => .step (makes_reference _) fun _ hstatement =>
    .step (makes_capture hstatement _) fun _ hstatement =>
    .step (makes_sequence (.cons hblanks (.cons helse (.cons hblanks (.cons hstatement .nil)))) rfl)
      fun _ hotherwise => .step (makes_regex _) fun _ hif =>
    .step (makes_capture (congrArg Groups.parens hg) _) fun _ htest =>
    .step (makes_reference _) fun _ hthen => .step (makes_capture hthen _) fun _ hthen =>
    .step (makes_nullable hotherwise) fun _ hotherwise =>
    .step (makes_capture hotherwise _) fun _ hotherwise =>
    .step (makes_sequence (.cons hif (.cons hblanks (.cons htest (.cons hblanks (.cons hthen
      (.cons hotherwise .nil)))))) rfl) fun _ hconditional => makes_map hconditional _

theorem makes_loop (hw : w.form = Form.words) (hg : g.form = Form.groups) :
    Makes (loop w g) [] fun n => n.form = Form.loop :=
  have hblanks := congrArg Words.blanks hw
  .step (makes_regex _) fun _ hkeyword => .step (makes_capture hkeyword _) fun _ hkeyword =>
    .step (makes_capture (congrArg Groups.parens hg) _) fun _ hhead =>
    .step (makes_reference _) fun _ hbody => .step (makes_capture hbody _) fun _ hbody =>
    .step (makes_sequence (.cons hkeyword (.cons hblanks (.cons hhead (.cons hblanks
      (.cons hbody .nil))))) rfl) fun _ hloop => makes_map hloop _

theorem makes_variableDeclaration (hw : w.form = Form.words) (hg : g.form = Form.groups)
    (ht : t.form = Form.types) {expression : Node} (hexpression : expression.form = Form.expression) :
    Makes (variableDeclaration w g t expression) [] fun n => n.form = Form.binding :=
  have hblanks := congrArg Words.blanks hw
  .step (makes_regex _) fun _ hkind =>
    .step (makes_choice (.cons (congrArg Words.identifier hw) (.cons (congrArg Groups.any hg) .nil)))
      fun _ hname => .step (makes_literal _) fun _ hequals =>
    .step (makes_capture hexpression _) fun _ hvalue =>
    .step (makes_sequence (.cons hblanks (.cons hequals (.cons hblanks (.cons hvalue .nil)))) rfl)
      fun _ hinit => .step (makes_capture hkind _) fun _ hkind =>
    .step (makes_capture hname _) fun _ hname => .step (makes_regex _) fun _ hmark =>
    .step (makes_nullable hmark) fun _ hmark => .step (makes_nullable hinit) fun _ hinit =>
    .step (makes_capture hinit _) fun _ hinit =>
    .step (makes_sequence (.cons hkind (.cons (congrArg Words.someBlanks hw) (.cons hname
      (.cons hmark (.cons (congrArg Types.annotation ht) (.cons hinit
      (.cons (congrArg Words.terminator hw) .nil))))))) rfl) fun _ hvariable =>
    makes_map hvariable _

theorem makes_returnStatement (hw : w.form = Form.words) {expression : Node}
    (hexpression : expression.form = Form.expression) :
    Makes (returnStatement w expression) [] fun n => n.form = Form.returned :=
  .step (makes_regex _) fun _ hgap => .step (makes_capture hexpression _) fun _ hvalue =>
    .step (makes_sequence (.cons hgap (.cons hvalue .nil)) rfl) fun _ hargument =>
    .step (makes_regex _) fun _ hreturn => .step (makes_nullable hargument) fun _ hargument =>
    .step (makes_capture hargument _) fun _ hargument =>
    .step (makes_sequence (.cons hreturn (.cons hargument
      (.cons (congrArg Words.terminator hw) .nil))) rfl) fun _ hreturned => makes_map hreturned _

end

/-! ## The grammar -/

theorem makes_grammar : Makes grammar Form.rules fun entries =>
    entries.program.form = Form.program ∧ entries.statement.form = Form.single :=
  .step makes_words fun _ hw => .bind (makes_groups hw) fun _ hg => .bind (makes_types hw hg)
      fun _ ht =>
    have hblanks := congrArg Words.blanks hw
    .step (makes_parameters hw hg ht) fun _ hparams =>
    .step (makes_arrowHead hw ht hparams) fun _ harrow =>
    .step (makes_expressions hw hg harrow) fun _ hexpression =>
    .step (makes_reference _) fun _ hstatement => .step (makes_capture hstatement _)
      fun _ hstatement =>
    .step (makes_sequence (.cons hblanks (.cons hstatement .nil)) rfl) fun _ hnext =>
    .step (makes_map hnext _) fun _ hnext => .step (makes_repetition hnext) fun _ hstatements =>
    .rule (makes_symbol (.step (makes_literal _) fun _ hopening =>
      .step (makes_capture hstatements _) fun _ hbody => .step (makes_literal _) fun _ hclosing =>
      .step (makes_sequence (.cons hopening (.cons hbody (.cons hblanks (.cons hclosing .nil)))) rfl)
        fun _ hblock => makes_map hblock _)) fun _ hblock =>
    .step (makes_erasedDeclarations hw hg ht) fun _ herased =>
    .step (makes_functionDeclaration hw hg ht hparams hblock) fun _ hfunction =>
    .step (makes_conditional hw hg) fun _ hconditional => .step (makes_loop hw hg) fun _ hloop =>
    .step (makes_variableDeclaration hw hg ht hexpression) fun _ hvariable =>
    .step (makes_returnStatement hw hexpression) fun _ hreturned =>
    .step (makes_capture hexpression _) fun _ hkept =>
    .step (makes_sequence (.cons hkept (.cons (congrArg Words.terminator hw) .nil)) rfl)
      fun _ hstanding => .step (makes_map hstanding _) fun _ hstanding =>
    .rule (makes_symbol (.step (makes_literal _) fun _ hsemicolon =>
      .step (makes_map hsemicolon _) fun _ hempty =>
      makes_choice (.cons (congrArg Words.comment hw) (List.rel_append herased
        (.cons hfunction (.cons hconditional (.cons hloop (.cons hvariable (.cons hreturned
          (.cons hblock (.cons hempty (.cons hstanding .nil)))))))))))) fun _ hstatement =>
    .step (makes_capture hstatements _) fun _ hbody =>
    .step (makes_sequence (.cons hbody (.cons hblanks .nil)) rfl) fun _ hprogram =>
    .step (makes_map hprogram _) fun _ hprogram =>
    .step (makes_capture hstatement _) fun _ hstatement =>
    .step (makes_sequence (.cons hblanks (.cons hstatement .nil)) rfl) fun _ hsingle =>
    .pure ⟨hprogram, hsingle⟩

/-- The forms of the grammar: of the rules and of the places where a parse may begin. -/
theorem grammar_forms : formsOf (grammar.run {}).2.registry.body? = Form.bodies ∧
    (grammar.run {}).1.program.form = Form.program ∧
    (grammar.run {}).1.statement.form = Form.single := by
  obtain ⟨hentries, hrules⟩ := makes_grammar.run
  exact ⟨funext hrules, hentries⟩

/-! ## The compiled rules -/

/-- The body of a rule. -/
def Parsers.body? (parsers : Parsers) (name : String) : Option Matcher :=
  ((grammar.run {}).2.registry.lookup name).bind fun slot => (parsers.program.rules[slot]?).join

/-- One of the kinds of a statement. -/
def Parsers.alternative? (parsers : Parsers) (i : Nat) : Option Matcher :=
  (parsers.body? "statement").bind (·.children[i]?)

theorem Parsers.member_body {parsers : Parsers} {member : Matcher → Prop}
    (F : Family parsers.program.rules member) {name : String} {m : Matcher}
    (h : parsers.body? name = some m) : member m := by
  obtain ⟨slot, -, hm⟩ := Option.bind_eq_some_iff.mp h
  exact F.bodies ⟨slot, hm⟩

theorem Parsers.member_alternative {parsers : Parsers} {member : Matcher → Prop}
    (F : Family parsers.program.rules member) {i : Nat} {m : Matcher}
    (h : parsers.alternative? i = some m) : member m := by
  obtain ⟨body, hbody, hm⟩ := Option.bind_eq_some_iff.mp h
  exact F.children (member_body F hbody) (List.mem_of_getElem? hm)

/-- The alternatives of the compiled rule have the forms that are written down. -/
theorem Parsers.exists_alternative {parsers : Parsers} (hparsers : Parsers.compiled = .ok parsers)
    {i : Nat} {form : Node} (h : Form.statement.children[i]? = some form) :
    ∃ (n : Node) (m : Matcher), n.form = form ∧ n.compile (grammar.run {}).2.registry = .ok m ∧
      parsers.alternative? i = some m := by
  have hstatement : formsOf (grammar.run {}).2.registry.body? "statement" = some Form.statement := by
    rw [grammar_forms.1]
    rfl
  obtain ⟨body, hbody, hform⟩ := Option.map_eq_some_iff.mp hstatement
  have hlinked := Parser.compile_reference (Parsers.eq_of_compiled hparsers).1 "statement"
  rw [hbody, Option.map_some] at hlinked
  obtain ⟨mbody, hslot, hmbody⟩ := Option.map_eq_some_iff.mp hlinked.symm
  obtain ⟨n, m, hn, hm, hchild⟩ := Node.exists_child hmbody.symm (hform ▸ h)
  exact ⟨n, m, hn, hm, by rw [alternative?, body?, hslot, Option.bind_some, hchild]⟩

end Typestrip.TypeScript
