import SmtScript.Proofs.Reply.Acceptance

/-!
What a decoder writes out in order to look at it. The sort that a definition reports is
compared with the declared one by their texts. Since an expression that has been read is
known by its canonical text, this compares the expressions themselves.
-/

namespace SmtScript.Reply

open Sexp (Canonical)

variable {T : Theory}

/-- A definition of a variable in scope is refused for its sort exactly if the text of the
sort is not the text of the declared one. -/
lemma decodeDefinition_eq_sortMismatch {r : Recognizer T} {count : Nat} {filled : Filled T}
    {d : Definition} {e : Entry T} (hname : r.recognize? d.name = some e)
    (hposition : e.position < count) {name expected found : Text} :
    decodeDefinition r count filled d = .error (.sortMismatch name expected found) ↔
      T.sortText e.sort ≠ d.sort.text ∧ d.name = name ∧ T.sortText e.sort = expected ∧
        d.sort.text = found := by
  unfold decodeDefinition
  rw [filter_recognize?_eq_some.mpr ⟨hname, hposition⟩]
  dsimp only
  split
  · next hsort => simp [hsort]
  · next hsort =>
    refine ⟨?_, fun h => absurd h.1 hsort⟩
    repeat' split
    all_goals exact nofun

/-- **Sorts are compared as expressions**: a definition that has been read is refused for its
sort exactly if that is another expression than the declared sort. -/
theorem sortMismatch_iff_ne {r : Recognizer T} {count : Nat} {filled : Filled T} {t rest : Text}
    {items : List Sexp} (hread : Sexp.readOne t = .ok (.list items, rest)) {d : Definition}
    (hd : d.sexp ∈ items) {e : Entry T} (hname : r.recognize? d.name = some e)
    (hposition : e.position < count) {declared : Sexp} (hdeclared : declared.Canonical)
    (hsort : T.sortText e.sort = declared.text) :
    (∃ name expected found,
      decodeDefinition r count filled d = .error (.sortMismatch name expected found)) ↔
        d.sort ≠ declared := by
  obtain ⟨hcanonical, -⟩ := canonical_definition hread hd
  have hne : T.sortText e.sort ≠ d.sort.text ↔ d.sort ≠ declared := by
    rw [hsort, ne_eq, hdeclared.text_inj hcanonical, eq_comm]
  simp only [decodeDefinition_eq_sortMismatch hname hposition, hne, exists_and_left,
    exists_eq', and_true]

/-- **Canonical text stands for its expression.** It is read as the expression, and whatever
is read, or stands inside what is read, has such a text. So expressions that have been read
are equal if their texts are, a text that is read and written again is in its final form,
and a definition in a reply is refused for its sort exactly if that is a different
expression from the declared one. -/
theorem canonical_text_faithful :
    (∀ s : Sexp, s.Canonical → Sexp.readExact s.text = .ok s) ∧
    (∀ t rest top, Sexp.readOne t = .ok (top, rest) → ∀ s : Sexp, s.Inside top → s.Canonical) ∧
    (∀ t rest top t' rest' top', Sexp.readOne t = .ok (top, rest) →
      Sexp.readOne t' = .ok (top', rest') → ∀ s s' : Sexp, s.Inside top → s'.Inside top' →
        (s.text = s'.text ↔ s = s')) ∧
    (∀ t w, Sexp.canonicalText t = .ok w → Sexp.canonicalText w = .ok w) ∧
    ∀ {T : Theory} (r : Recognizer T) (count : Nat) (filled : Filled T) t rest items,
      Sexp.readOne t = .ok (.list items, rest) → ∀ d : Definition, d.sexp ∈ items →
        ∀ e, r.recognize? d.name = some e → e.position < count →
          ∀ declared : Sexp, declared.Canonical → T.sortText e.sort = declared.text →
            ((∃ name expected found, decodeDefinition r count filled d =
                .error (.sortMismatch name expected found)) ↔ d.sort ≠ declared) := by
  refine ⟨fun _ hs => hs.readExact_text, fun _ _ _ hread _ => Sexp.canonical_of_inside hread, ?_,
    fun _ _ => Sexp.canonicalText_idem, ?_⟩
  · intro t rest top t' rest' top' hread hread' s s' hs hs'
    have hcanonical : s.Canonical := Sexp.canonical_of_inside hread hs
    exact hcanonical.text_inj (Sexp.canonical_of_inside hread' hs')
  · intro T r count filled t rest items hread d hd e hname hposition declared hdeclared hsort
    exact sortMismatch_iff_ne hread hd hname hposition hdeclared hsort

/-- A list of a quoted atom that holds separators, an unquoted one that holds a bar, and
lists. -/
def barred : Sexp := .list [.atom "|a\n;(b|", .atom "c|d", .list [], .list [.atom "||"]]

lemma readOne_barred : Sexp.readOne "( |a\n;(b|c|d()  (||) ) ; end" = .ok (barred, " ; end") := by
  cbv

lemma readOne_wrongSort : Sexp.readOne "((define-fun x0 () Real 1.0))" =
    .ok (.list [(⟨"x0", .atom "Real", .atom "1.0"⟩ : Definition).sexp], []) := by
  cbv

theorem barred_text_faithful :
    Sexp.readExact "(|a\n;(b| c|d () (||))" = .ok barred ∧ (Sexp.atom "||").Canonical ∧
      ((Sexp.atom "||").text = barred.text ↔ Sexp.atom "||" = barred) ∧
      Sexp.canonicalText barred.text = .ok barred.text ∧
      ∃ name expected found, decodeDefinition Script.sampleRecognizer 2 []
        ⟨"x0", .atom "Real", .atom "1.0"⟩ = .error (.sortMismatch name expected found) := by
  obtain ⟨hread, hcanonical, hinj, hidem, hsort⟩ := canonical_text_faithful
  have hwhole := hcanonical _ _ _ readOne_barred barred (.whole _)
  have hbars : (Sexp.atom "||").Inside barred := by
    refine .item (s := .list [.atom "||"]) (.item (.whole _) ?_) ?_
    · exact List.mem_singleton_self _
    · simp
  have hint : (Sexp.atom "Int").Canonical := ⟨.atom (.inl (by decide)), by decide⟩
  refine ⟨hread _ hwhole, hcanonical _ _ _ readOne_barred _ hbars, ?_, ?_, ?_⟩
  · exact hinj _ _ _ _ _ _ readOne_barred readOne_barred _ _ hbars (.whole _)
  · exact hidem _ _ (Sexp.canonicalText_eq_ok.mpr ⟨barred, hread _ hwhole, rfl⟩)
  · refine (hsort Script.sampleRecognizer 2 [] _ _ _ readOne_wrongSort _ (by simp) ⟨"x0", .int, 0⟩
      rfl (by decide) (.atom "Int") hint rfl).mpr ?_
    simp

end SmtScript.Reply
