import SmtScript.Arith.Value
import SmtScript.Proofs.Term.Typing

/-!
What the check of a context decides. It looks at the positions of variables and quantifiers
and at the sorts of variables; signatures, and the bodies of quantifiers, are the business of
the constructors. For a term that comes from them, whatever contexts they were called in,
the check is all that is left to do: it passes exactly where the term is well-sorted.

Whether a term that has its place in a context keeps it in a longer one is a matter of its
quantifiers alone.
-/

namespace SmtScript.Term

variable {T : Theory}

/-- A well-sorted term passes the check, wherever it comes from. -/
lemma HasSort.check {t : Term T} {ctx : Context T} {s : T.Sorts} (h : HasSort ctx t s) :
    t.check ctx = .ok () := by
  induction t generalizing ctx s with
  | var p r => exact check_var.mpr (hasSort_var.mp h).1
  | lit l => rfl
  | app op args ih =>
    obtain ⟨-, hargs, -⟩ := hasSort_app.mp h
    exact check_app.mpr fun t ht => ih t ht (hargs t ht)
  | quant q p r body ih =>
    obtain ⟨hp, hbody, -⟩ := hasSort_quant.mp h
    exact check_quant.mpr ⟨hp, ih hbody⟩

/-- **The check decides well-sortedness** of terms that come from the constructors, in every
context. -/
theorem Built.check_eq_ok_iff {t : Term T} (ht : t.Built) (ctx : Context T) :
    t.check ctx = .ok () ↔ HasSort ctx t t.sort :=
  ⟨fun h => ht.hasSort h, fun h => h.check⟩

/-- A comparison of the variable that a quantifier binds with the one before it. -/
def leaked : Term arith := .app (Arith.Op.lt .int) [.var 1 Arith.Srt.int, .var 0 Arith.Srt.int]

/-- The body of a quantifier, taken out of it: it has a place where the second variable is
an integer too. -/
theorem leaked_check_eq_ok_iff :
    leaked.Built ∧ HasSort [Arith.Srt.int, Arith.Srt.int] leaked Arith.Srt.bool ∧
      ¬ HasSort [Arith.Srt.int] leaked Arith.Srt.bool := by
  have hbuilt : leaked.Built := by
    refine built_app (fun u hu => ?_) rfl
    rcases List.mem_pair.mp hu with rfl | rfl
    · exact built_var [Arith.Srt.int, Arith.Srt.int] rfl
    · exact built_var [Arith.Srt.int] rfl
  refine ⟨hbuilt, ?_, fun h => ?_⟩
  · exact (Built.check_eq_ok_iff hbuilt [Arith.Srt.int, Arith.Srt.int]).mp rfl
  · exact absurd ((Built.check_eq_ok_iff hbuilt [Arith.Srt.int]).mpr h) (by decide)

/-- Without the constructors the check says less: it passes a comparison of nothing. -/
example : check [] (.app (Arith.Op.lt .int) [] : Term arith) = .ok () := rfl

/-! ### In a longer context -/

/-- What the check says of terms with some number of quantifiers, where variables have been
added to a context in which they have their places. -/
def grownCheck (ctx more : Context T) (count : Nat) : Except BuildError Unit :=
  if count = 0 then .ok () else .error (.quantifierScope (ctx ++ more).length ctx.length)

/-- The first argument with a quantifier is refused. -/
lemma checkArgs_append {ctx more : Context T} {args : List (Term T)}
    (hargs : ∀ t ∈ args, t.check (ctx ++ more) = grownCheck ctx more t.quantifiers) :
    checkArgs (ctx ++ more) args = grownCheck ctx more (argsQuantifiers args) := by
  induction args with
  | nil => rfl
  | cons t args ih =>
    obtain ⟨ht, hargs⟩ := List.forall_mem_cons.mp hargs
    rw [checkArgs, ht, argsQuantifiers]
    by_cases hfree : t.quantifiers = 0
    · rw [grownCheck, if_pos hfree, ok_bind, ih hargs, hfree, Nat.zero_add]
    · have hsum : t.quantifiers + argsQuantifiers args ≠ 0 := by omega
      rw [grownCheck, if_neg hfree, grownCheck, if_neg hsum]
      rfl

/-- Variables have the positions that they had, and an outermost quantifier remembers the
length of the shorter context. -/
lemma check_append {t : Term T} {ctx more : Context T} (h : t.check ctx = .ok ())
    (hmore : more ≠ []) : t.check (ctx ++ more) = grownCheck ctx more t.quantifiers := by
  induction t with
  | var p s =>
    have hkept : (ctx ++ more)[p]? = ctx[p]? := List.getElem?_append_left (position_lt_of_check h)
    exact check_var.mpr (hkept.trans (check_var.mp h))
  | lit l => rfl
  | app op args ih =>
    rw [check, quantifiers]
    exact checkArgs_append fun t ht => ih t ht (check_app.mp h t ht)
  | quant q p s body =>
    obtain ⟨rfl, -⟩ := check_quant.mp h
    have hpos : 0 < more.length := List.length_pos_iff.mpr hmore
    have hlen : ctx.length ≠ (ctx ++ more).length := by
      rw [List.length_append]
      omega
    rw [check, if_neg hlen, quantifiers, grownCheck, if_neg (Nat.succ_ne_zero _)]

/-- **A term without quantifiers keeps its place when the context grows.** -/
theorem check_append_of_free {t : Term T} {ctx : Context T} (h : t.check ctx = .ok ())
    (hfree : t.quantifiers = 0) (more : Context T) : t.check (ctx ++ more) = .ok () := by
  by_cases hmore : more = []
  · rw [hmore, List.append_nil, h]
  · rw [check_append h hmore, grownCheck, if_pos hfree]

/-- **A term with a quantifier loses its place when the context grows.** The reason is that of
its first outermost quantifier. -/
theorem check_append_of_quantified {t : Term T} {ctx more : Context T}
    (h : t.check ctx = .ok ()) (hmore : more ≠ []) (hquant : t.quantifiers ≠ 0) :
    t.check (ctx ++ more) = .error (.quantifierScope (ctx ++ more).length ctx.length) := by
  rw [check_append h hmore, grownCheck, if_neg hquant]

end SmtScript.Term
