import SmtScript.Proofs.Term.Printing

/-!
Terms written without a naming. The number of every name is counted off the term: a
quantifier takes the number of those before it, on top of the first number of the term, and
a variable has the number of the quantifier around it that binds its position or else that of
the constant declared there. The printer, which keeps the names in scope and a counter that
is never set back, comes to the same text.
-/

namespace SmtScript

variable {T : Theory}

/-- Numbers for the positions that the enclosing quantifiers bind, innermost first. -/
abbrev Enclosing := List (Nat × Nat)

/-- The number of the variable at a position: that of the quantifier which binds it, if one
of those around it does, or that of the constant. -/
def Enclosing.number (enclosing : Enclosing) (constants : Nat → Nat) (position : Nat) : Nat :=
  (enclosing.lookup position).getD (constants position)

namespace Term

mutual

/-- The text of a term inside an assertion. The quantifiers of the assertion are numbered
from `first` on, and `before` of them stand before the term. -/
def transcript (constants : Nat → Nat) (first : Nat) : Term T → Nat → Enclosing → Text
  | .var position _, _, enclosing => Naming.nameOf (enclosing.number constants position)
  | .lit value, _, _ => T.literalText value
  | .app op args, before, enclosing =>
    "(" ++ T.opText op ++ argsTranscript constants first args before enclosing ++ ")"
  | .quant q position sort body, before, enclosing =>
    "(" ++ q.text ++ " ((" ++ Naming.nameOf (first + before) ++ " " ++ T.sortText sort ++ ")) " ++
      body.transcript constants first (before + 1) ((position, first + before) :: enclosing) ++ ")"

/-- The texts of the arguments, each after a space and after the quantifiers of those before
it. -/
def argsTranscript (constants : Nat → Nat) (first : Nat) :
    List (Term T) → Nat → Enclosing → Text
  | [], _, _ => []
  | t :: rest, before, enclosing =>
    " " ++ t.transcript constants first before enclosing ++
      argsTranscript constants first rest (before + t.quantifiers) enclosing

end

end Term

namespace Naming

/-- The variables in scope are named by the numbers. -/
def NamedBy (names : Naming) (number : Nat → Nat) : Prop :=
  ∀ p < names.depth, names.nameAt p = nameOf (number p)

lemma nameAt_bind {names : Naming} {p : Nat} (h : p < names.depth) :
    names.bind.nameAt p = names.nameAt p := by
  rw [nameAt, nameAt, name?, name?, live_bind, List.getElem?_append_left h]

lemma nameAt_bind_depth (names : Naming) : names.bind.nameAt names.depth = names.fresh := by
  simp [nameAt, name?, depth, fresh]

/-- The name that is given last has the number of the next name, and the others keep theirs. -/
lemma NamedBy.bind {names : Naming} {number number' : Nat → Nat} (h : names.NamedBy number)
    (hlast : number' names.depth = names.next)
    (hbefore : ∀ p < names.depth, number' p = number p) : names.bind.NamedBy number' := by
  intro p hp
  rw [depth_bind] at hp
  rcases Nat.lt_succ_iff_lt_or_eq.mp hp with hp | rfl
  · rw [nameAt_bind hp, h p hp, hbefore p hp]
  · rw [nameAt_bind_depth, hlast, fresh]

/-- A quantifier around a term binds the first free position. -/
lemma NamedBy.enclose {names : Naming} {constants : Nat → Nat} {enclosing : Enclosing}
    (h : names.NamedBy (enclosing.number constants)) :
    names.bind.NamedBy
      (Enclosing.number ((names.depth, names.next) :: enclosing) constants) := by
  refine h.bind (by simp [Enclosing.number]) fun p hp => ?_
  have hne : (p == names.depth) = false := beq_false_of_ne (Nat.ne_of_lt hp)
  simp [Enclosing.number, List.lookup_cons, hne]

end Naming

namespace Term

/-- What is to be shown of a term: where the variables of a context are named as the
transcript counts them, the term is written as the transcript has it. -/
def Transcribes (t : Term T) : Prop :=
  ∀ {ctx : Context T}, t.check ctx = .ok () → ∀ {names : Naming} {constants : Nat → Nat}
    {first before : Nat} {enclosing : Enclosing}, names.depth = ctx.length →
    names.next = first + before → names.NamedBy (enclosing.number constants) →
    (t.sexp names).text = t.transcript constants first before enclosing

lemma argsTranscript_eq {args : List (Term T)} (hargs : ∀ t ∈ args, t.Transcribes)
    {ctx : Context T} (hcheck : ∀ t ∈ args, t.check ctx = .ok ()) {names : Naming}
    {constants : Nat → Nat} {first before : Nat} {enclosing : Enclosing}
    (hd : names.depth = ctx.length) (hnext : names.next = first + before)
    (hnamed : names.NamedBy (enclosing.number constants)) :
    ((argsSexp args names).map Sexp.text).flatMap ((" " : Text) ++ ·) =
      argsTranscript constants first args before enclosing := by
  induction args generalizing names before with
  | nil => rfl
  | cons t args ih =>
    obtain ⟨hfirst, hargs⟩ := List.forall_mem_cons.mp hargs
    obtain ⟨ht, hcheck⟩ := List.forall_mem_cons.mp hcheck
    -- the names in scope after the first argument are the same, and the counter has moved on
    have hd' : (names.advance t.quantifiers).depth = ctx.length := hd
    have hnext' : (names.advance t.quantifiers).next = first + (before + t.quantifiers) := by
      rw [Naming.next_advance, hnext, Nat.add_assoc]
    rw [argsText_cons, argsTranscript, hfirst ht hd hnext hnamed,
      ih hargs hcheck hd' hnext' hnamed]

/-- **The printer writes the transcript.** -/
theorem transcribes (t : Term T) : t.Transcribes := by
  induction t with
  | var p s =>
    intro ctx ht names constants first before enclosing hd hnext hnamed
    have hp : p < names.depth := hd ▸ position_lt_of_check ht
    exact hnamed p hp
  | lit l =>
    intro ctx _ names constants first before enclosing _ _ _
    rfl
  | app op args ih =>
    intro ctx ht names constants first before enclosing hd hnext hnamed
    rw [text_sexp_app, argsTranscript_eq ih (check_app.mp ht) hd hnext hnamed]
    rfl
  | quant q p s body ih =>
    intro ctx ht names constants first before enclosing hd hnext hnamed
    obtain ⟨rfl, hbody⟩ := check_quant.mp ht
    have hinner : names.bind.next = first + (before + 1) := by
      rw [Naming.next_bind, hnext, Nat.add_assoc]
    have hnamed' := hnamed.enclose
    rw [hd, hnext] at hnamed'
    rw [text_sexp_quant, ih hbody (by simp [hd]) hinner hnamed', Naming.fresh, hnext]
    rfl

end Term

end SmtScript
