import Mathlib.Algebra.Group.Nat.Defs
import Typestrip.Proofs.Grammar.Joining

/-!
# What an identity stands for

Identities are shared on purpose: a literal is handed out again, sequences join literals, and the
nodes of one builder stand in grammars of another. All the same an identity stands for one node
(`Workshop.identity`), even where identities are kept in 32 bits, as long as fewer than 2³² of them
were drawn. So what is remembered about an identity holds of every node that has it.
-/

namespace Typestrip.Grammar

/-- The nodes that can be reached from what someone has at hand: the nodes themselves, the bodies of
rules, the literals that are kept, and everything below them. -/
inductive Reaches (builders : List Builder) (held : List Node) : Node → Prop
  | held {n} : n ∈ held → Reaches builders held n
  | body {b n} : b ∈ builders → n ∈ b.registry.bodies → Reaches builders held n
  | literal {b entry} : b ∈ builders → entry ∈ b.literals → Reaches builders held entry.2
  | child {n c} : Reaches builders held n → c ∈ n.children → Reaches builders held c

theorem Stock.reaches {builders : List Builder} {held : List Node} {next : NodeId}
    {known : Node → Prop} (h : Stock next known) (hheld : ∀ n ∈ held, known n)
    (hbuilders : ∀ b ∈ builders,
      (∀ e ∈ b.literals, known e.2) ∧ ∀ n ∈ b.registry.bodies, known n) {n : Node}
    (hn : Reaches builders held n) : known n := by
  induction hn with
  | held hn => exact hheld _ hn
  | body hb hn => exact (hbuilders _ hb).2 _ hn
  | literal hb he => exact (hbuilders _ hb).1 _ he
  | child _ hc ih => exact h.children ih _ hc

/-- A plain literal is a terminal with nothing but an identity. -/
theorem Node.eq_of_plainLiteral? {n : Node} {text : String} (h : n.plainLiteral? = some text) :
    n = .terminal { id := n.id } (.literal text) := by
  obtain ⟨⟨id, capture, nullable, reshape⟩, ⟨hcapture, hnullable, hreshape⟩, rfl⟩ :=
    plainLiteral?_eq_some h
  subst hcapture hnullable hreshape
  rfl

/-- However grammars are built, by any number of builders, and as long as fewer than 2³² identities
were drawn: nodes with the same 32-bit identity are one node, with one name to be kept under, one
reshaping function, and one kind. What a builder keeps for a text is the literal of the text, without
further attributes. -/
theorem Workshop.identity {builders : List Builder} {held : List Node}
    (h : Workshop builders held) (hfew : nextIdentity builders ≤ 2 ^ 32) :
    (∀ m n, Reaches builders held m → Reaches builders held n →
      m.id.toUInt32 = n.id.toUInt32 → m = n) ∧
    ∀ b ∈ builders, ∀ entry ∈ b.literals,
      entry.2 = .terminal { id := entry.2.id } (.literal entry.1) := by
  obtain ⟨known, hstock, hheld, hbuilders⟩ := h.exists_stock
  refine ⟨fun m n hm hn hid => ?_, fun b hb entry he => ?_⟩
  · have hm := hstock.reaches hheld hbuilders hm
    have hn := hstock.reaches hheld hbuilders hn
    -- no identity was drawn that does not fit into 32 bits
    have hfits {n : Node} (hn : known n) : n.id.toUInt32.toNat = n.id :=
      Nat.mod_eq_of_lt (Nat.lt_of_lt_of_le (hstock.drawn hn) hfew)
    exact hstock.unique hm hn (by rw [← hfits hm, ← hfits hn, hid])
  · exact Node.eq_of_plainLiteral? (h.orderly b hb entry he)

/-- A sequence joins two literals, and the literal of both texts is asked for later: it is the same
node, and making it nullable gives another one. -/
theorem identity_joined : ∃ builders held, Workshop builders held ∧
    nextIdentity builders ≤ 2 ^ 32 ∧ ∃ sequence joined asked changed : Node,
      [changed, asked, sequence] <+: held ∧ sequence.children = [joined] ∧
      joined = asked ∧ changed.id.toUInt32 ≠ asked.id.toUInt32 := by
  have letters := (Workshop.empty.builder.work (.literal "a")).work (.literal "b")
  have sequence := letters.work (.sequence (List.forall_mem_cons.mpr
    ⟨.tail _ (.head _), List.forall_mem_singleton.mpr (.head _)⟩))
  have changed := (sequence.work (.literal "ab")).work (.nullable (.head _))
  have hfew : 5 ≤ 2 ^ 32 := by decide
  obtain ⟨hidentity, -⟩ := changed.identity hfew
  refine ⟨_, _, changed, hfew, _, _, _, _, ⟨_, rfl⟩, rfl, ?_, fun hid => ?_⟩
  · exact hidentity _ _ (.child (.held (.tail _ (.tail _ (.head _)))) (.head _))
      (.held (.tail _ (.head _))) rfl
  · cases hidentity _ _ (.held (.head _)) (.held (.tail _ (.head _))) hid

end Typestrip.Grammar
