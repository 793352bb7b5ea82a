import Mathlib.Data.List.Perm.Basic
import SmtScript.Proofs.Arith.Value
import SmtScript.Proofs.Reply.Answers
import SmtScript.Proofs.Script.Printing

/-!
Writing answers and reading them back. A solver writes a verdict as a word and a model as a
list of definitions, in whatever order and with whatever white space between them. The
answers that it writes to a reachable script are the ones that are decoded.
-/

namespace SmtScript

open Lexeme

/-- The definition of a variable, as a solver writes it. -/
def Assignment.text {T : Theory} (a : Assignment T) : Text :=
  "(define-fun " ++ a.name ++ " () " ++ T.sortText a.sort ++ " " ++ T.valueText a.value ++ ")"

/-- Values for the variables of a context, by position, under their names. -/
def Recognizer.assign {T : Theory} (r : Recognizer T) (ctx : Context T)
    (values : List T.Value) : List (Assignment T) :=
  (ctx.zip values).mapIdx fun position (sort, v) => ⟨(r.nameOf? position).getD [], sort, v⟩

namespace Reply

/-- The text of a model: a list of definitions with a gap between each two, which may be empty,
perhaps after the atom `model`. -/
def modelText {T : Theory} (headed : Bool) (gap : Text) (definitions : List (Assignment T)) :
    Text :=
  "(" ++ Text.joined gap ((if headed then [("model" : Text)] else []) ++
    definitions.map Assignment.text) ++ ")"

/-- The block is a text for an answer to the slot. A verdict may be any; a model may have any
values of the sorts declared, and its definitions may stand in any order. -/
inductive Reports (r : Recognizer arith) : Slot arith → Answer arith → Text → Prop where
  | verdict (v : Verdict) : Reports r .verdict (.verdict v) v.text
  | model {ctx : Context arith} {values : List Arith.Constant} {gap : Text}
      {definitions : List (Assignment arith)} (hsorts : values.map Arith.Constant.sort = ctx)
      (hperm : definitions.Perm (r.assign ctx values)) (headed : Bool)
      (hgap : ∀ c ∈ gap, Text.isBlank c = true) :
      Reports r (.model ctx) (.model ⟨r.assign ctx values⟩) (modelText headed gap definitions)

/-- One block for each slot, in order. -/
inductive ReportsAll (r : Recognizer arith) :
    List (Slot arith) → List (Answer arith) → List Text → Prop where
  | nil : ReportsAll r [] [] []
  | cons {slot : Slot arith} {a : Answer arith} {block : Text} {slots : List (Slot arith)}
      {answers : List (Answer arith)} {blocks : List Text} (h : Reports r slot a block)
      (hs : ReportsAll r slots answers blocks) :
      ReportsAll r (slot :: slots) (a :: answers) (block :: blocks)

/-! ### Definitions -/

/-- The tree of a definition that a solver writes. -/
def definitionSexp (a : Assignment arith) : Sexp :=
  Definition.sexp ⟨a.name, .atom (arith.sortText a.sort), a.value.sexp⟩

lemma definition?_definitionSexp (a : Assignment arith) :
    definition? (definitionSexp a) =
      some ⟨a.name, .atom (arith.sortText a.sort), a.value.sexp⟩ :=
  definition?_eq_some.mpr rfl

lemma text_definitionSexp (a : Assignment arith) : (definitionSexp a).text = a.text := by
  have hvalue : a.value.sexp.text = arith.valueText a.value := a.value.text_sexp
  unfold Assignment.text
  simp [definitionSexp, Definition.sexp, Sexp.text, Sexp.itemsText, hvalue]

/-- What stands before a definition ends there. -/
lemma delimited_definitionSexp (a : Assignment arith) (t : Text) :
    Delimited ((definitionSexp a).text ++ t) := by
  rw [definitionSexp, Definition.sexp, Sexp.text, List.cons_append]
  exact delimited_opening _

lemma readable_definitionSexp {a : Assignment arith} (hname : IsAtom a.name) :
    (definitionSexp a).Readable := by
  refine .list fun s hs => ?_
  simp only [List.mem_cons, List.not_mem_nil, or_false] at hs
  rcases hs with rfl | rfl | rfl | rfl | rfl
  · exact .atom (.inl (by decide))
  · exact .atom hname
  · exact .list nofun
  · exact .atom (.inl (Arith.Srt.unquoted_text a.sort))
  · exact a.value.readable_sexp

lemma depth_definitionSexp_le (a : Assignment arith) : (definitionSexp a).depth ≤ 3 := by
  have := a.value.depth_sexp_le
  simp only [definitionSexp, Definition.sexp, Sexp.depth, Sexp.itemsDepth]
  omega

/-! ### Models -/

/-- The items of a model's list. -/
def modelItems (headed : Bool) (definitions : List (Assignment arith)) : List Sexp :=
  (if headed then [.atom "model"] else []) ++ definitions.map definitionSexp

lemma modelText_eq (headed : Bool) (gap : Text) (definitions : List (Assignment arith)) :
    modelText headed gap definitions =
      '(' :: (Text.joined gap ((modelItems headed definitions).map Sexp.text) ++ [')']) := by
  have htext : definitions.map Assignment.text =
      (definitions.map definitionSexp).map Sexp.text := by
    rw [List.map_map]
    exact List.map_congr_left fun a _ => (text_definitionSexp a).symm
  rw [modelText, modelItems, List.map_append, htext]
  cases headed <;> rfl

lemma withoutHead_modelItems (headed : Bool) (definitions : List (Assignment arith)) :
    withoutHead (modelItems headed definitions) = definitions.map definitionSexp := by
  cases headed with
  | true => rfl
  | false => cases definitions <;> rfl

lemma readable_modelItems (headed : Bool) {definitions : List (Assignment arith)}
    (hnames : ∀ a ∈ definitions, IsAtom a.name) :
    ∀ s ∈ modelItems headed definitions, s.Readable := by
  intro s hs
  rcases List.mem_append.mp hs with hs | hs
  · cases headed with
    | true =>
      obtain rfl := List.mem_singleton.mp hs
      exact .atom (.inl (by decide))
    | false => cases hs
  · obtain ⟨a, ha, rfl⟩ := List.mem_map.mp hs
    exact readable_definitionSexp (hnames a ha)

/-- After the first item of a model there are definitions only. -/
lemma mem_tail_modelItems {headed : Bool} {definitions : List (Assignment arith)} {s : Sexp}
    (hs : s ∈ (modelItems headed definitions).tail) : ∃ a ∈ definitions, definitionSexp a = s := by
  cases headed with
  | true => exact List.mem_map.mp hs
  | false => exact List.mem_map.mp (List.mem_of_mem_tail hs)

lemma depth_modelItems_le (headed : Bool) (definitions : List (Assignment arith)) :
    (Sexp.list (modelItems headed definitions)).depth ≤ 4 := by
  rw [Sexp.depth]
  refine Nat.succ_le_succ (Sexp.itemsDepth_le_iff.mpr fun s hs => ?_)
  rcases List.mem_append.mp hs with hs | hs
  · cases headed with
    | true => simp [List.mem_singleton.mp hs, Sexp.depth]
    | false => cases hs
  · obtain ⟨a, -, rfl⟩ := List.mem_map.mp hs
    exact depth_definitionSexp_le a

/-- The text of a model is read as its list, whatever white space it has. -/
lemma readOne_modelText {headed : Bool} {gap : Text} {definitions : List (Assignment arith)}
    (hnames : ∀ a ∈ definitions, IsAtom a.name) (hgap : ∀ c ∈ gap, Text.isBlank c = true)
    (rest : Text) :
    Sexp.readOne (modelText headed gap definitions ++ rest) =
      .ok (.list (modelItems headed definitions), rest) := by
  have hblank : Blank gap := blank_of_isBlank hgap
  have hends (s : Sexp) (hs : s ∈ (modelItems headed definitions).tail) (t : Text) :
      Delimited (gap ++ (s.text ++ t)) := by
    obtain ⟨a, -, rfl⟩ := mem_tail_modelItems hs
    exact hblank.delimited_append (.inr (delimited_definitionSexp a t))
  have hscan := Sexp.scan_list hblank hends
    (fun s hs r hr => Sexp.scan_text (readable_modelItems headed hnames s hs) hr) rest
  rw [modelText_eq, List.cons_append, List.append_assoc]
  exact Sexp.readOne_of_scan hscan ((depth_modelItems_le headed definitions).trans (by decide))

lemma length_assign {r : Recognizer arith} {ctx : Context arith} {values : List Arith.Constant}
    (hvalues : values.map Arith.Constant.sort = ctx) :
    (r.assign ctx values).length = ctx.length := by
  simp [Recognizer.assign, ← hvalues]

section

variable {full ctx : Context arith} {numbers : List Nat} {values : List Arith.Constant}
  (hlen : numbers.length = full.length) (hctx : ctx <+: full)
  (hvalues : values.map Arith.Constant.sort = ctx)

include hlen hctx hvalues

lemma assign_numbered {p : Nat} (hp : p < ctx.length) :
    ∃ (hn : p < numbers.length) (hv : p < values.length), ctx[p] = values[p].sort ∧
      ((Recognizer.numbered full numbers).assign ctx values)[p]? =
        some ⟨Naming.nameOf numbers[p], values[p].sort, values[p]⟩ := by
  have hfull := hctx.length_le
  have hv : values.length = ctx.length := by rw [← hvalues, List.length_map]
  have hn : p < numbers.length := by omega
  refine ⟨hn, by omega, ?_⟩
  subst hvalues
  rw [List.length_map] at hp
  simp [Recognizer.assign, Recognizer.nameOf?_numbered hlen, hn, hp]

lemma isAtom_name_assign :
    ∀ a ∈ (Recognizer.numbered full numbers).assign ctx values, IsAtom a.name := by
  intro a ha
  obtain ⟨p, hp⟩ := List.mem_iff_getElem?.mp ha
  have hlt := (List.getElem?_eq_some_iff.mp hp).1
  rw [length_assign hvalues] at hlt
  obtain ⟨hn, hv, -, heq⟩ := assign_numbered hlen hctx hvalues hlt
  obtain rfl := Option.some.inj (hp.symm.trans heq)
  exact .inl (Naming.unquoted_nameOf _)

/-- The definition of a variable assigns the value to its position. -/
lemma assigns_definitionSexp (hnumbers : numbers.Nodup) {p : Nat} {a : Assignment arith}
    (ha : ((Recognizer.numbered full numbers).assign ctx values)[p]? = some a) :
    Assigns (Recognizer.numbered full numbers) ctx.length (definitionSexp a) (p, a) := by
  have hp := (List.getElem?_eq_some_iff.mp ha).1
  rw [length_assign hvalues] at hp
  obtain ⟨hn, hv, hsort, heq⟩ := assign_numbered hlen hctx hvalues hp
  obtain rfl := Option.some.inj (ha.symm.trans heq)
  have hfull : full[p]? = some values[p].sort := by
    obtain ⟨rest, rfl⟩ := hctx
    rw [List.getElem?_append_left hp, List.getElem?_eq_getElem hp, hsort]
  have hname : (Recognizer.numbered full numbers).recognize? (Naming.nameOf numbers[p]) =
      some ⟨Naming.nameOf numbers[p], values[p].sort, p⟩ := by
    rw [Recognizer.recognize?_numbered hlen hnumbers]
    exact ⟨rfl, hfull, by simp [hn]⟩
  have hvalue : arith.readValue values[p].sort values[p].sexp.text = .ok values[p] := by
    rw [Arith.Constant.text_sexp]
    exact values[p].readValue_text
  have hentry :=
    definition?_definitionSexp ⟨Naming.nameOf numbers[p], values[p].sort, values[p]⟩
  exact .mk hentry hname hp rfl hvalue

/-- **The definitions of a model make it up**, in whatever order they come. -/
theorem modelOfEntries_definitions (hnumbers : numbers.Nodup)
    {definitions : List (Assignment arith)}
    (hperm : definitions.Perm ((Recognizer.numbered full numbers).assign ctx values)) :
    modelOfEntries (.numbered full numbers) ctx (definitions.map definitionSexp) =
      .ok ⟨(Recognizer.numbered full numbers).assign ctx values⟩ := by
  have hlength := length_assign (r := .numbered full numbers) hvalues
  have hinorder : List.Forall₂
      (fun a x => Assigns (.numbered full numbers) ctx.length (definitionSexp a) x)
      ((Recognizer.numbered full numbers).assign ctx values)
      ((List.range ctx.length).zip ((Recognizer.numbered full numbers).assign ctx values)) := by
    refine List.forall₂_iff_get.mpr ⟨by simp [hlength], fun p hp hp' => ?_⟩
    simp only [List.get_eq_getElem, List.getElem_zip, List.getElem_range]
    exact assigns_definitionSexp hlen hctx hvalues hnumbers (List.getElem?_eq_getElem hp)
  obtain ⟨xs, hall, hxs⟩ := List.perm_comp_forall₂ hperm hinorder
  exact modelOfEntries_eq_ok.mpr ⟨hlength, xs, List.forall₂_map_left_iff.mpr hall, hxs⟩

end

/-! ### Replies -/

lemma nextSexp_append {b : Text} (hb : Blank b) (expected t : Text) :
    nextSexp expected (b ++ t) = nextSexp expected t := by
  unfold nextSexp
  rw [Sexp.readOne_append hb]

/-- Blanks before an answer make no difference. -/
lemma decodeSlot_append {T : Theory} (r : Recognizer T) {b : Text} (hb : Blank b) (t : Text)
    (slot : Slot T) : decodeSlot r (b ++ t) slot = decodeSlot r t slot := by
  cases slot with
  | verdict => simp only [decodeSlot, decodeVerdict, nextSexp_append hb]
  | model ctx => simp only [decodeSlot, decodeModel, nextSexp_append hb]

lemma decodeSlots_append {T : Theory} (r : Recognizer T) {b : Text} (hb : Blank b) (t : Text)
    (slot : Slot T) (slots : List (Slot T)) :
    decodeSlots r (slot :: slots) (b ++ t) = decodeSlots r (slot :: slots) t := by
  rw [decodeSlots, decodeSlots, decodeSlot_append r hb]

section

variable {full : Context arith} {numbers : List Nat} (hlen : numbers.length = full.length)
  (hnumbers : numbers.Nodup)

include hlen hnumbers

/-- **One answer is read back**, and what follows it is left. -/
theorem decodeSlot_of_reports {slot : Slot arith} {a : Answer arith} {block : Text}
    (h : Reports (.numbered full numbers) slot a block)
    (hslot : slot.Within full) {rest : Text} (hr : Delimited rest) :
    decodeSlot (.numbered full numbers) (block ++ rest) slot = .ok (a, rest) := by
  cases h with
  | verdict v =>
    have hatom : IsAtom v.text := by cases v <;> exact .inl (by decide)
    have hread : Sexp.readOne (v.text ++ rest) = .ok (.atom v.text, rest) :=
      Sexp.readOne_text (.atom hatom) (Nat.zero_le _) hr
    exact decodeSlot_eq_ok.mpr ⟨_, hread, .verdict (Verdict.ofText?_text v)⟩
  | @model ctx values gap definitions hsorts hperm headed hgap =>
    have hctx : ctx <+: full := hslot
    have hnames : ∀ a ∈ definitions, IsAtom a.name := fun a ha =>
      isAtom_name_assign hlen hctx hsorts a (hperm.mem_iff.mp ha)
    have hentries := modelOfEntries_definitions hlen hctx hsorts hnumbers hperm
    rw [← withoutHead_modelItems headed] at hentries
    exact decodeSlot_eq_ok.mpr ⟨_, readOne_modelText hnames hgap rest, .model hentries⟩

/-- Answers after a line end each are read back. -/
lemma decodeSlots_of_reports {slots : List (Slot arith)} {answers : List (Answer arith)}
    {blocks : List Text} (h : ReportsAll (.numbered full numbers) slots answers blocks)
    (hslots : ∀ slot ∈ slots, slot.Within full) :
    decodeSlots (.numbered full numbers) slots (blocks.flatMap (("\n" : Text) ++ ·)) =
        .ok (answers, []) ∧
      Delimited (blocks.flatMap (("\n" : Text) ++ ·)) := by
  induction h with
  | nil => exact ⟨rfl, delimited_nil⟩
  | @cons slot a block slots answers blocks h _ ih =>
    obtain ⟨hslot, hslots⟩ := List.forall_mem_cons.mp hslots
    obtain ⟨hrest, hdelim⟩ := ih hslots
    have hfirst := decodeSlot_of_reports hlen hnumbers h hslot hdelim
    refine ⟨?_, delimited_newline _⟩
    rw [List.flatMap_cons, List.append_assoc, decodeSlots_append _ blank_newline, decodeSlots,
      hfirst, ok_bind]
    simp only [hrest, ok_bind]
    rfl

lemma decode_of_reports {slots : List (Slot arith)} {answers : List (Answer arith)}
    {blocks : List Text} (h : ReportsAll (.numbered full numbers) slots answers blocks)
    (hslots : ∀ slot ∈ slots, slot.Within full) :
    decode (.numbered full numbers) slots (Text.joined "\n" blocks) = .ok answers.reverse := by
  have hall : decodeSlots (.numbered full numbers) slots (Text.joined "\n" blocks) =
      .ok (answers, []) := by
    obtain ⟨hlines, -⟩ := decodeSlots_of_reports hlen hnumbers h hslots
    cases h with
    | nil => rfl
    | cons h hs =>
      rw [List.flatMap_cons, List.append_assoc, decodeSlots_append _ blank_newline] at hlines
      rwa [Text.joined_cons]
  rw [decode, hall]
  rfl

end

end Reply

namespace Script

open Reply

/-- **What is answered to a reachable script is decoded.** Every variable has a name by which
a solver can define it. Any verdicts may be given, and any values of the sorts declared; the
definitions of a model may stand in any order. The answers are listed with the most recent
first, and each model by position. -/
theorem Reachable.decode_reports {s : Script arith} (h : s.Reachable) :
    ∃ printed, s.print = .ok printed ∧
      (∀ p < s.context.length, ∃ name, printed.recognizer.nameOf? p = some name) ∧
      ∀ answers blocks, ReportsAll printed.recognizer s.slots answers blocks →
        decode printed.recognizer s.slots (Text.joined "\n" blocks) = .ok answers.reverse := by
  obtain ⟨last, hordered, hdepth, hprint⟩ := h.print_eq
  have hlen : last.live.length = s.context.length := hdepth
  have hnodup : last.live.Nodup := hordered.increasing.imp Nat.ne_of_lt
  refine ⟨_, hprint, fun p hp => ?_, fun answers blocks hall => ?_⟩
  · exact ⟨_, by rw [Recognizer.nameOf?_numbered hlen, List.getElem?_eq_getElem (hlen ▸ hp)]; rfl⟩
  · exact decode_of_reports hlen hnodup hall h.within

/-- The variables of `sample`, and the names that a reply has for them. -/
def sampleRecognizer : Recognizer arith := [⟨"x0", .int, 0⟩, ⟨"x2", .real, 1⟩]

lemma sample_recognizer {printed : Printed arith} (h : sample.print = .ok printed) :
    printed.recognizer = sampleRecognizer :=
  map_of_ok h rfl

/-- Values for the variables of `sample`. -/
def sampleModel : List (Assignment arith) :=
  [⟨"x0", .int, .int (-5)⟩, ⟨"x2", .real, .real (-1 / 3)⟩]

def sampleAnswers : List (Answer arith) := [.verdict .sat, .model ⟨sampleModel⟩]

/-- A reply to `sample`, the second variable before the first. -/
def sampleReply : Text :=
  "sat\n(model\n  (define-fun x2 () Real (- (/ 1.0 3.0)))\n  (define-fun x0 () Int (- 5)))"

/-- The answers of `sampleReply`, one block each. -/
def sampleBlocks : List Text := [Verdict.sat.text, modelText true "\n  " sampleModel.reverse]

lemma joined_sampleBlocks : Text.joined "\n" sampleBlocks = sampleReply := by decide +kernel

lemma sample_reports : ReportsAll sampleRecognizer sample.slots sampleAnswers sampleBlocks := by
  have hsorts : ([.int (-5), .real (-1 / 3)] : List Arith.Constant).map Arith.Constant.sort =
      [.int, .real] := rfl
  have hperm : sampleModel.reverse.Perm (sampleRecognizer.assign [.int, .real]
      [.int (-5), .real (-1 / 3)]) := sampleModel.reverse_perm
  have hgap : ∀ c ∈ ("\n  " : Text), Text.isBlank c = true := List.all_eq_true.mp rfl
  exact .cons (.verdict .sat) (.cons (.model hsorts hperm true hgap) .nil)

theorem sample_decode_reports :
    sample.Reachable ∧ ∃ printed, sample.print = .ok printed ∧
      decode printed.recognizer sample.slots sampleReply = .ok sampleAnswers.reverse := by
  obtain ⟨printed, hprint, -, hdecode⟩ := Reachable.decode_reports sample_reachable
  refine ⟨sample_reachable, printed, hprint, ?_⟩
  rw [sample_recognizer hprint] at hdecode ⊢
  rw [← joined_sampleBlocks]
  exact hdecode sampleAnswers sampleBlocks sample_reports

end Script

end SmtScript
