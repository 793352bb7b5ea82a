import SmtScript.Proofs.Arith.Grammar
import SmtScript.Proofs.Reply.RoundTrip
import SmtScript.Proofs.Sexp.Canonical

/-!
Which replies are models. For any recognizer, whatever its names and positions, a model of
`n` variables is a list of `n` definitions that fill the positions below `n`, each once. The
order of the definitions does not matter. In arithmetic the values are the expressions of the
grammar as they stand in the reply, although each is written out and read again on the way.
-/

namespace SmtScript.Reply

variable {T : Theory}

/-- A definition, the variable that its name stands for, and the value that it gives it. -/
structure Reading (T : Theory) where
  definition : Definition
  entry : Entry T
  value : T.Value

namespace Reading

def position (x : Reading T) : Nat := x.entry.position

/-- What the definition assigns to its variable. -/
def assignment (x : Reading T) : Assignment T := ⟨x.entry.name, x.entry.sort, x.value⟩

/-- The name is recognized, below the number of variables; the sort is that of the variable,
and the value is one of that sort. -/
structure Correct (r : Recognizer T) (count : Nat) (x : Reading T) : Prop where
  recognized : r.recognize? x.definition.name = some x.entry
  position_lt : x.position < count
  sort_eq : x.definition.sort.text = T.sortText x.entry.sort
  value_eq : T.readValue x.entry.sort x.definition.value.text = .ok x.value

end Reading

/-- The entries are definitions of the variables at the positions below `count`, each
position once, and the model has what they assign, by position. -/
structure Defines (r : Recognizer T) (count : Nat) (entries : List Sexp)
    (readings : List (Reading T)) (m : Model T) : Prop where
  entries_eq : entries = readings.map fun x => x.definition.sexp
  length_eq : entries.length = count
  correct : ∀ x ∈ readings, x.Correct r count
  once : ∀ p < count, (readings.map Reading.position).count p = 1
  size_eq : m.size = count
  assigned : ∀ x ∈ readings, m.assignments[x.position]? = some x.assignment

/-! ### Entries -/

lemma assigns_iff {r : Recognizer T} {count : Nat} {entry : Sexp} {a : Nat × Assignment T} :
    Assigns r count entry a ↔
      ∃ x : Reading T, x.Correct r count ∧ entry = x.definition.sexp ∧
        a = (x.position, x.assignment) := by
  refine ⟨?_, ?_⟩
  · intro h
    cases h with
    | @mk d e v hentry hname hposition hsort hvalue =>
      refine ⟨⟨d, e, v⟩, ⟨hname, hposition, hsort.symm, hvalue⟩, ?_, rfl⟩
      exact definition?_eq_some.mp hentry
  · rintro ⟨x, hx, hentry, rfl⟩
    exact .mk (definition?_eq_some.mpr hentry) hx.recognized hx.position_lt hx.sort_eq.symm
      hx.value_eq

lemma forall₂_assigns_iff {r : Recognizer T} {count : Nat} {entries : List Sexp}
    {as : List (Nat × Assignment T)} :
    List.Forall₂ (Assigns r count) entries as ↔
      ∃ readings : List (Reading T), (∀ x ∈ readings, x.Correct r count) ∧
        entries = readings.map (fun x => x.definition.sexp) ∧
        as = readings.map fun x => (x.position, x.assignment) :=
  forall₂_iff_exists_map fun _ _ => assigns_iff

/-- **What makes a model**, definition by definition. -/
theorem modelOfEntries_iff_defines {r : Recognizer T} {ctx : Context T} {entries : List Sexp}
    {m : Model T} :
    modelOfEntries r ctx entries = .ok m ↔
      ∃ readings, Defines r ctx.length entries readings m := by
  simp only [modelOfEntries_eq_ok, forall₂_assigns_iff]
  refine ⟨?_, ?_⟩
  · rintro ⟨hsize, _, ⟨readings, hcorrect, rfl, rfl⟩, hperm⟩
    obtain ⟨hpositions, hassigned⟩ := (perm_range_zip_iff hsize).mp hperm
    rw [List.map_map] at hpositions
    refine ⟨readings, rfl, ?_, hcorrect, (perm_range_iff.mp hpositions).2, hsize, ?_⟩
    · simpa using hpositions.length_eq
    · exact fun x hx => hassigned _ (List.mem_map_of_mem hx)
  · rintro ⟨readings, h⟩
    refine ⟨h.size_eq, _, ⟨readings, h.correct, h.entries_eq, rfl⟩, ?_⟩
    rw [perm_range_zip_iff h.size_eq, List.map_map, List.forall_mem_map]
    refine ⟨perm_range_iff.mpr ⟨?_, h.once⟩, h.assigned⟩
    exact List.forall_mem_map.mpr fun x hx => (h.correct x hx).position_lt

/-- The order of the entries does not matter. -/
lemma modelOfEntries_of_perm {r : Recognizer T} {ctx : Context T} {entries entries' : List Sexp}
    {m : Model T} (hperm : entries'.Perm entries) (h : modelOfEntries r ctx entries = .ok m) :
    modelOfEntries r ctx entries' = .ok m := by
  obtain ⟨hsize, as, hall, has⟩ := modelOfEntries_eq_ok.mp h
  obtain ⟨as', hall', has'⟩ := List.perm_comp_forall₂ hperm hall
  exact modelOfEntries_eq_ok.mpr ⟨hsize, as', hall', has'.trans has⟩

/-! ### Values -/

/-- A definition in a list that has been read can be written and read again. -/
lemma canonical_definition {t rest : Text} {items : List Sexp} {d : Definition}
    (h : Sexp.readOne t = .ok (.list items, rest)) (hd : d.sexp ∈ items) :
    d.sort.Canonical ∧ d.value.Canonical := by
  have hdefinition : d.sexp.Canonical := (Sexp.canonical_of_readOne h).item hd
  exact ⟨hdefinition.item (by simp), hdefinition.item (by simp)⟩

lemma readValue_canonical {e : Sexp} (h : e.Canonical) {s : Arith.Srt} {v : Arith.Constant} :
    Arith.readValue s e.text = .ok v ↔ Arith.Denotes s e v := by
  rw [Arith.readValue_eq_ok, h.readExact_text]
  simp

/-! ### Models -/

/-- **A reply is taken for a model exactly if it is one**: its first expression is a list of
the definitions of all variables, in any order. In arithmetic a definition gives a value
exactly if the expression in it is one of the grammar, and then the value that it denotes. -/
theorem decodeModel_accepts :
    (∀ {T : Theory} (r : Recognizer T) (ctx : Context T) (t : Text),
      (∀ m rest, decodeModel r ctx t = .ok (m, rest) ↔
        ∃ items readings, Sexp.readOne t = .ok (.list items, rest) ∧
          Defines r ctx.length (withoutHead items) readings m) ∧
      ∀ items rest m t' items' rest', Sexp.readOne t = .ok (.list items, rest) →
        Sexp.readOne t' = .ok (.list items', rest') →
        (withoutHead items').Perm (withoutHead items) →
        decodeModel r ctx t = .ok (m, rest) → decodeModel r ctx t' = .ok (m, rest')) ∧
    ∀ t items rest, Sexp.readOne t = .ok (.list items, rest) →
      ∀ d : Definition, d.sexp ∈ items → ∀ s v,
        arith.readValue s d.value.text = .ok v ↔ Arith.Denotes s d.value v := by
  refine ⟨fun r ctx t => ⟨fun m rest => ?_, ?_⟩, ?_⟩
  · simp only [decodeModel_eq_ok, modelOfEntries_iff_defines, exists_and_left]
  · intro items rest m t' items' rest' hread hread' hperm h
    obtain ⟨items₀, hread₀, hm⟩ := decodeModel_eq_ok.mp h
    obtain ⟨heq, -⟩ := Prod.mk.inj (Except.ok.inj (hread.symm.trans hread₀))
    obtain rfl := Sexp.list.inj heq
    exact decodeModel_eq_ok.mpr ⟨items', hread', modelOfEntries_of_perm hperm hm⟩
  · intro t items rest hread d hd s v
    exact readValue_canonical (canonical_definition hread hd).2

/-- The definitions of `Script.sampleModel`, the second variable before the first. -/
def sampleReadings : List (Reading arith) :=
  [⟨⟨"x2", .atom "Real", (Arith.Constant.real (-1 / 3)).sexp⟩, ⟨"x2", .real, 1⟩, .real (-1 / 3)⟩,
    ⟨⟨"x0", .atom "Int", (Arith.Constant.int (-5)).sexp⟩, ⟨"x0", .int, 0⟩, .int (-5)⟩]

lemma sampleReadings_define :
    Defines Script.sampleRecognizer 2 (Script.sampleModel.reverse.map definitionSexp)
      sampleReadings ⟨Script.sampleModel⟩ where
  entries_eq := rfl
  length_eq := rfl
  correct := by
    have hvalue (c : Arith.Constant) : arith.readValue c.sort c.sexp.text = .ok c := by
      rw [Arith.Constant.text_sexp]
      exact c.readValue_text
    rw [sampleReadings, List.forall_mem_cons, List.forall_mem_singleton]
    refine ⟨⟨rfl, by decide, rfl, ?_⟩, ⟨rfl, by decide, rfl, ?_⟩⟩
    · exact hvalue (.real (-1 / 3))
    · exact hvalue (.int (-5))
  once := by decide
  size_eq := rfl
  assigned := by
    rw [sampleReadings, List.forall_mem_cons, List.forall_mem_singleton]
    exact ⟨rfl, rfl⟩

lemma readOne_sampleModel (headed : Bool) {gap : Text} {definitions : List (Assignment arith)}
    (hgap : ∀ c ∈ gap, Text.isBlank c = true)
    (hdefinitions : definitions.Perm Script.sampleModel) :
    Sexp.readOne (modelText headed gap definitions) =
      .ok (.list (modelItems headed definitions), []) := by
  have hnames : ∀ a ∈ Script.sampleModel, Lexeme.IsAtom a.name := by
    rw [Script.sampleModel, List.forall_mem_cons, List.forall_mem_singleton]
    exact ⟨.inl (by decide), .inl (by decide)⟩
  have hread : Sexp.readOne (modelText headed gap definitions ++ []) =
      .ok (.list (modelItems headed definitions), []) :=
    readOne_modelText (fun a ha => hnames a (hdefinitions.mem_iff.mp ha)) hgap []
  rwa [List.append_nil] at hread

theorem sampleModel_accepted :
    (∀ t ∈ [modelText true "\n  " Script.sampleModel.reverse,
        modelText false " " Script.sampleModel],
      decodeModel Script.sampleRecognizer [.int, .real] t = .ok (⟨Script.sampleModel⟩, [])) ∧
    ∀ a ∈ Script.sampleModel, ∀ v, arith.readValue a.sort a.value.sexp.text = .ok v ↔
      Arith.Denotes a.sort a.value.sexp v := by
  have hlines : ∀ c ∈ ("\n  " : Text), Text.isBlank c = true := List.all_eq_true.mp rfl
  have hspace : ∀ c ∈ (" " : Text), Text.isBlank c = true := List.all_eq_true.mp rfl
  have hread := readOne_sampleModel true hlines Script.sampleModel.reverse_perm
  have hread' := readOne_sampleModel false hspace (.refl _)
  obtain ⟨haccepts, hvalues⟩ := decodeModel_accepts
  obtain ⟨hiff, hperm⟩ := haccepts Script.sampleRecognizer [.int, .real]
    (modelText true "\n  " Script.sampleModel.reverse)
  have hfirst := (hiff ⟨Script.sampleModel⟩ []).mpr ⟨_, _, hread, sampleReadings_define⟩
  refine ⟨List.forall_mem_cons.mpr ⟨hfirst, List.forall_mem_singleton.mpr ?_⟩, ?_⟩
  · refine hperm _ _ _ _ _ _ hread hread' ?_ hfirst
    simp only [withoutHead_modelItems]
    exact Script.sampleModel.reverse_perm.symm.map _
  · intro a ha
    have hmem : definitionSexp a ∈ modelItems true Script.sampleModel.reverse :=
      List.mem_append_right _ (List.mem_map_of_mem (List.mem_reverse.mpr ha))
    exact hvalues _ _ _ hread ⟨a.name, .atom (arith.sortText a.sort), a.value.sexp⟩ hmem a.sort

end SmtScript.Reply
