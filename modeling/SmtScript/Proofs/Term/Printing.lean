import SmtScript.Proofs.Naming
import SmtScript.Proofs.Sexp.Scan
import SmtScript.Proofs.Term.Typing
import SmtScript.Term.Printer

/-!
What the printer writes. `Term.sexp` is the tree of a term's text: symbols and names are its
atoms, and nothing in it can fail. A term with a place in a context is written as the text
of that tree, and the naming is left as it was but for the counter, which has moved on by
the number of quantifiers.
-/

namespace SmtScript.Term

variable {T : Theory}

mutual

/-- The tree of a term's text, where the given names are in scope. -/
def sexp : Term T → Naming → Sexp
  | .var position _, names => .atom (names.nameAt position)
  | .lit value, _ => .atom (T.literalText value)
  | .app op args, names => .list (.atom (T.opText op) :: argsSexp args names)
  | .quant q _ sort body, names =>
    .list [.atom q.text, .list [.list [.atom names.fresh, .atom (T.sortText sort)]],
      body.sexp names.bind]

def argsSexp : List (Term T) → Naming → List Sexp
  | [], _ => []
  | t :: rest, names => t.sexp names :: argsSexp rest (names.advance t.quantifiers)

end

lemma argsText_cons (t : Term T) (args : List (Term T)) (names : Naming) :
    ((argsSexp (t :: args) names).map Sexp.text).flatMap ((" " : Text) ++ ·) =
      " " ++ (t.sexp names).text ++
        ((argsSexp args (names.advance t.quantifiers)).map Sexp.text).flatMap
          ((" " : Text) ++ ·) := by
  simp [argsSexp]

lemma text_sexp_app (op : T.Op) (args : List (Term T)) (names : Naming) :
    (sexp (.app op args) names).text =
      "(" ++ T.opText op ++
        ((argsSexp args names).map Sexp.text).flatMap ((" " : Text) ++ ·) ++ ")" := by
  rw [sexp, Sexp.text_list, List.map_cons, Text.joined_cons]
  simp [Sexp.text]

lemma text_sexp_quant (q : Quantifier) (p : Nat) (s : T.Sorts) (body : Term T)
    (names : Naming) :
    (sexp (.quant q p s body) names).text =
      "(" ++ q.text ++ " ((" ++ names.fresh ++ " " ++ T.sortText s ++ ")) " ++
        (body.sexp names.bind).text ++ ")" := by
  simp [sexp, Sexp.text, Sexp.itemsText]

/-- The printer writes the term as its tree, and restores the names in scope. -/
def Prints (t : Term T) (names : Naming) : Prop :=
  t.print names = (.ok (t.sexp names).text, names.advance t.quantifiers)

lemma printArgs_eq {ctx : Context T} {args : List (Term T)}
    (hargs : ∀ t ∈ args, ∀ names : Naming, names.depth = ctx.length → t.Prints names)
    (names : Naming) (hd : names.depth = ctx.length) :
    printArgs args names =
      (.ok (((argsSexp args names).map Sexp.text).flatMap ((" " : Text) ++ ·)),
        names.advance (argsQuantifiers args)) := by
  induction args generalizing names with
  | nil => rfl
  | cons t args ih =>
    obtain ⟨hfirst, hargs⟩ := List.forall_mem_cons.mp hargs
    have ht : t.Prints names := hfirst names hd
    have hrest := ih hargs (names.advance t.quantifiers) hd
    rw [printArgs, ht]
    simp only [hrest]
    rw [argsText_cons, Naming.advance_advance, argsQuantifiers]

/-- **A term with a place in a context is written**, under names for the variables of the
context. -/
theorem prints_of_check {t : Term T} {ctx : Context T} (ht : t.check ctx = .ok ())
    {names : Naming} (hd : names.depth = ctx.length) : t.Prints names := by
  induction t generalizing ctx names with
  | var p s =>
    have hp : p < names.depth := hd ▸ position_lt_of_check ht
    unfold Prints
    rw [print, Naming.name?_eq_some hp]
    rfl
  | lit l => rfl
  | app op args ih =>
    have hargs := check_app.mp ht
    have h := printArgs_eq (fun t hm names hd => ih t hm (hargs t hm) hd) names hd
    unfold Prints
    rw [print, h, text_sexp_app, quantifiers]
  | quant q p s body ih =>
    obtain ⟨hp, hbody⟩ := check_quant.mp ht
    have h : body.Prints names.bind := ih hbody (by simp [hd])
    unfold Prints
    rw [print, if_pos (hp.trans hd.symm), h, text_sexp_quant, quantifiers]
    simp only [Naming.unbind_advance_bind]

end SmtScript.Term
