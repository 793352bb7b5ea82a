import SmtScript.Proofs.Arith.Normal
import SmtScript.Proofs.Script.Printing
import SmtScript.Proofs.Sexp.Unique

/-!
What the text of a script tells of its commands. In a legible theory the text determines
them, provided that the logics named are plain atoms: each line tells its command, and with
it the context and the naming of the next line. In arithmetic this holds for commands in
literal normal form; so two scripts have one text exactly if they have one normal form.
-/

namespace SmtScript

open Lexeme

namespace Command

variable {T : Theory} {P : T.Literal → Prop}

/-- The word that a command's line begins with. -/
def keyword : Command T → Text
  | .setLogic _ => "set-logic"
  | .declareConst _ => "declare-const"
  | .assert _ => "assert"
  | .checkSat => "check-sat"
  | .getModel => "get-model"

/-- What follows the keyword. -/
def operands : Command T → Naming → List Sexp
  | .setLogic logic, _ => [.atom logic]
  | .declareConst sort, names => [.atom names.fresh, .atom (T.sortText sort)]
  | .assert t, names => [t.sexp names]
  | .checkSat, _ | .getModel, _ => []

lemma sexp_eq (c : Command T) (names : Naming) :
    c.sexp names = .list (.atom c.keyword :: c.operands names) := by
  cases c <;> rfl

lemma unquoted_keyword (c : Command T) : Unquoted c.keyword := by
  cases c <;> exact of_decide_eq_true rfl

/-- The command's text tells what it is: its logic is a plain atom, its term is well-sorted
and has literals with the property only. -/
def Proper (P : T.Literal → Prop) (ctx : Context T) : Command T → Prop
  | .setLogic logic => Plain logic
  | .assert t => t.Proper P ctx
  | _ => True

/-- Commands one after another, each proper in the context that those before it leave. -/
inductive ProperAll (P : T.Literal → Prop) : Context T → List (Command T) → Prop where
  | nil (ctx : Context T) : ProperAll P ctx []
  | cons {ctx : Context T} {c : Command T} {cs : List (Command T)} (hc : c.Proper P ctx)
      (h : ProperAll P (c.contextAfter ctx) cs) : ProperAll P ctx (c :: cs)

/-! ### One line -/

section

variable {ctx : Context T} {names : Naming} (hd : names.depth = ctx.length)

include hd

/-- The atoms of a command are its keyword, the logic that it names, and symbols. -/
lemma atoms_sexp {Q : Text → Prop} (hsymbol : ∀ a, T.Symbol P a → Q a) {c : Command T}
    (hc : c.Proper P ctx) (hkeyword : Q c.keyword)
    (hlogic : ∀ logic, c = .setLogic logic → Q logic) : (c.sexp names).Atoms Q := by
  rw [sexp_eq, Sexp.atoms_list, List.forall_mem_cons]
  refine ⟨.atom hkeyword, fun s hs => ?_⟩
  cases c with
  | setLogic logic =>
    obtain rfl := List.mem_singleton.mp hs
    exact .atom (hlogic logic rfl)
  | declareConst sort =>
    rcases List.mem_pair.mp hs with rfl | rfl
    · exact .atom (hsymbol _ (.name _))
    · exact .atom (hsymbol _ (.sort sort))
  | assert t =>
    obtain rfl := List.mem_singleton.mp hs
    exact (Term.symbols_sexp hc hd).mono hsymbol
  | checkSat | getModel => cases hs

variable (hT : T.Legible P)

include hT

lemma plain_sexp {c : Command T} (hc : c.Proper P ctx) : (c.sexp names).Atoms Plain := by
  refine atoms_sexp hd (fun _ => hT.plain_symbol) hc c.unquoted_keyword.1 ?_
  rintro logic rfl
  exact hc

/-- **A command is told from its tree.** -/
theorem eq_of_sexp (ho : names.Ordered) {c c' : Command T} (hc : c.Proper P ctx)
    (hc' : c'.Proper P ctx) (h : c.sexp names = c'.sexp names) : c = c' := by
  rw [sexp_eq, sexp_eq, Sexp.list.injEq, List.cons.injEq, Sexp.atom.injEq] at h
  obtain ⟨hkeyword, hoperands⟩ := h
  cases c with
  | setLogic logic =>
    cases c' with
    | setLogic logic' => rw [Sexp.atom.inj (List.cons.inj hoperands).1]
    | _ => exact absurd hkeyword (of_decide_eq_false rfl)
  | declareConst sort =>
    cases c' with
    | declareConst sort' =>
      have hsort := Sexp.atom.inj (List.cons.inj (List.cons.inj hoperands).2).1
      rw [hT.sort_inj hsort]
    | _ => exact absurd hkeyword (of_decide_eq_false rfl)
  | assert t =>
    cases c' with
    | assert t' => rw [t.determined hT hd ho hc hc' (List.cons.inj hoperands).1]
    | _ => exact absurd hkeyword (of_decide_eq_false rfl)
  | checkSat =>
    cases c' with
    | checkSat => rfl
    | _ => exact absurd hkeyword (of_decide_eq_false rfl)
  | getModel =>
    cases c' with
    | getModel => rfl
    | _ => exact absurd hkeyword (of_decide_eq_false rfl)

end

/-! ### All lines -/

/-- **Lines tell their commands**, from the first to the last. -/
theorem eq_of_lines (hT : T.Legible P) {ctx : Context T} {cs cs' : List (Command T)}
    (h : ProperAll P ctx cs) (h' : ProperAll P ctx cs') {names : Naming}
    (hd : names.depth = ctx.length) (ho : names.Ordered) (heq : lines cs names = lines cs' names) :
    cs = cs' := by
  induction h generalizing cs' names with
  | nil =>
    cases h' with
    | nil => rfl
    | cons => simp [lines] at heq
  | @cons ctx c cs hc h ih =>
    cases h' with
    | nil => simp [lines] at heq
    | @cons _ c' cs' hc' h' =>
      rw [lines, lines] at heq
      obtain ⟨hsexp, hrest⟩ := (c.sexp names).frontDetermined (plain_sexp hd hT hc)
        (plain_sexp hd hT hc') (delimited_newline _) (delimited_newline _) heq
      obtain rfl := eq_of_sexp hd hT ho hc hc' hsexp
      rw [ih h' (depth_namingAfter hd) (ordered_namingAfter ho) (List.cons.inj hrest).2]

/-! ### Literal normal form -/

/-- A command with its term in literal normal form. -/
def literalNormal : Command arith → Command arith
  | .assert t => .assert t.literalNormal
  | c => c

lemma contextAfter_literalNormal (c : Command arith) (ctx : Context arith) :
    c.literalNormal.contextAfter ctx = c.contextAfter ctx := by
  cases c <;> rfl

lemma namingAfter_literalNormal (c : Command arith) (names : Naming) :
    c.literalNormal.namingAfter names = c.namingAfter names := by
  cases c with
  | assert t => rw [literalNormal, namingAfter, namingAfter, t.quantifiers_literalNormal]
  | setLogic | declareConst | checkSat | getModel => rfl

lemma text_literalNormal (c : Command arith) (names : Naming) :
    (c.literalNormal.sexp names).text = (c.sexp names).text := by
  cases c with
  | assert t => simp [literalNormal, sexp, Sexp.text, Sexp.itemsText, t.text_literalNormal]
  | setLogic | declareConst | checkSat | getModel => rfl

/-- The normal forms are written as the commands are, line by line. -/
lemma text_trees_literalNormal (cs : List (Command arith)) (names : Naming) :
    (trees (cs.map literalNormal) names).map Sexp.text = (trees cs names).map Sexp.text := by
  induction cs generalizing names with
  | nil => rfl
  | cons c cs ih =>
    rw [List.map_cons, trees, trees, List.map_cons, List.map_cons, text_literalNormal,
      namingAfter_literalNormal, ih]

lemma lines_literalNormal (cs : List (Command arith)) (names : Naming) :
    lines (cs.map literalNormal) names = lines cs names := by
  have hlines (cs : List (Command arith)) :
      lines cs names = ((trees cs names).map Sexp.text).flatMap (· ++ ("\n" : Text)) := by
    rw [lines_eq_flatMap, List.flatMap_map]
  rw [hlines, hlines, text_trees_literalNormal]

lemma setLogic_mem_literalNormal {cs : List (Command arith)} {logic : Text}
    (h : .setLogic logic ∈ cs.map literalNormal) : .setLogic logic ∈ cs := by
  obtain ⟨c, hc, heq⟩ := List.mem_map.mp h
  cases c with
  | setLogic => exact heq ▸ hc
  | declareConst | assert | checkSat | getModel => cases heq

/-- Accepted commands are proper in literal normal form. -/
lemma properAll_literalNormal {st st' : ScriptState arith} {cs : List (Command arith)}
    (h : Runs st cs st') (hbuilt : ∀ t, .assert t ∈ cs → t.Built)
    (hlogic : ∀ logic, .setLogic logic ∈ cs → Plain logic) :
    ProperAll Arith.Constant.Unsigned st.context (cs.map literalNormal) := by
  induction h with
  | nil st => exact .nil st.context
  | @cons st st' c cs hc _ ih =>
    have hrest := ih (fun t ht => hbuilt t (List.mem_cons_of_mem c ht))
      (fun logic hl => hlogic logic (List.mem_cons_of_mem c hl))
    rw [List.map_cons]
    refine .cons ?_ (by rwa [contextAfter_literalNormal])
    cases c with
    | setLogic logic => exact hlogic logic List.mem_cons_self
    | assert t => exact Term.proper_literalNormal ((hbuilt t List.mem_cons_self).hasSort hc.1)
    | declareConst | checkSat | getModel => trivial

end Command

namespace Script

open Command

/-- **Printing loses no meaning.** Two reachable scripts whose logics are plain atoms have
one text exactly if they have the same commands in literal normal form: the sort of every
operation, the position of every variable and the sort of every bound variable can be told
from the text. -/
theorem Reachable.text_eq_iff {s s' : Script arith} (h : s.Reachable) (h' : s'.Reachable)
    (hlogic : ∀ logic, .setLogic logic ∈ s.commands → Plain logic)
    (hlogic' : ∀ logic, .setLogic logic ∈ s'.commands → Plain logic) :
    ∃ printed printed', s.print = .ok printed ∧ s'.print = .ok printed' ∧
      (printed.text = printed'.text ↔
        s.commands.map literalNormal = s'.commands.map literalNormal) := by
  obtain ⟨last, -, -, hprint⟩ := h.print_eq
  obtain ⟨last', -, -, hprint'⟩ := h'.print_eq
  refine ⟨_, _, hprint, hprint', ?_⟩
  rw [← lines_literalNormal s.commands, ← lines_literalNormal s'.commands]
  refine ⟨?_, ?_⟩
  · exact eq_of_lines Arith.legible
      (properAll_literalNormal h.runs (fun _ => h.built) hlogic)
      (properAll_literalNormal h'.runs (fun _ => h'.built) hlogic') rfl Naming.ordered_initial
  · intro heq
    rw [heq]

/-- Calls that assert of the first variable to be less than an integer. -/
def boundCalls (t : Term arith) : List (Call arith) :=
  [.setLogic "LIA", .declareConst Arith.Srt.int,
    .assert (.app (Arith.Op.lt .int) [.var 0 Arith.Srt.int, t]), .checkSat]

def bound (t : Term arith) : Script arith := (boundCalls t).foldl perform empty

lemma bound_reachable {t : Term arith} (ht : t.Built) (hsort : t.sort = Arith.Srt.int) :
    (bound t).Reachable := by
  have hterm : Term.Built (.app (Arith.Op.lt .int) [.var 0 Arith.Srt.int, t]) := by
    refine Term.built_app (fun u hu => ?_) (congrArg (fun s => [Arith.Srt.int, s]) hsort)
    rcases List.mem_pair.mp hu with rfl | rfl
    · exact Term.built_var [Arith.Srt.int] rfl
    · exact ht
  exact reachable_of_assert_eq hterm (by simp [boundCalls, Call.commands])

lemma plain_logic_bound (t : Term arith) :
    ∀ logic, .setLogic logic ∈ (bound t).commands → Plain logic := by
  intro logic h
  have hlogic : logic = "LIA" := logic_eq_of_calls (by simp [boundCalls, Call.commands]) h
  rw [hlogic]
  decide

/-- A negative literal. -/
def minusThree : Term arith := .lit (Arith.Constant.int (-3))

/-- The negation of a literal. -/
def negatedThree : Term arith := .app (Arith.Op.neg .int) [.lit (Arith.Constant.int 3)]

theorem bound_text_eq_iff :
    (bound minusThree).Reachable ∧ (bound negatedThree).Reachable ∧
      (bound minusThree).commands.map literalNormal =
        (bound negatedThree).commands.map literalNormal := by
  have hbuilt : negatedThree.Built := by
    refine Term.built_app (fun u hu => ?_) rfl
    obtain rfl := List.mem_singleton.mp hu
    exact .lit _
  have hreach := bound_reachable (t := minusThree) (.lit _) rfl
  have hreach' := bound_reachable hbuilt rfl
  obtain ⟨printed, printed', hprint, hprint', hiff⟩ :=
    Reachable.text_eq_iff hreach hreach' (plain_logic_bound _) (plain_logic_bound _)
  have htext : (bound minusThree).print.map Printed.text =
      (bound negatedThree).print.map Printed.text := by decide +kernel
  rw [hprint, hprint'] at htext
  exact ⟨hreach, hreach', hiff.mp (Except.ok.inj htext)⟩

end Script

end SmtScript
