import SmtScript.Proofs.Pipeline
import SmtScript.Proofs.Reply.Refusal

/-!
What an error quotes. A reply that has something unexpected in it, or something left over, is
refused with a piece of text that can be shown on one line: the beginning of what the reader
had before it, or of the canonical text of the expression that is out of place.
-/

namespace SmtScript

namespace Text

/-- The quotation is the first line of the source without the white space around it, or the
beginning of a long one with three points after it. There is something to see in it, and it is
on one line. -/
structure Quotes (source quoted : Text) : Prop where
  ne_nil : quoted ≠ []
  newline_not_mem : '\n' ∉ quoted
  begins : ∀ c ∈ quoted.head?, isBlank c = false
  length_le : quoted.length ≤ 83
  line_prefix : source.firstLine.trim <+: source
  whole : source.firstLine.trim.length ≤ 80 → quoted = source.firstLine.trim
  cut : 80 < source.firstLine.trim.length → quoted = source.firstLine.trim.take 80 ++ "..."

lemma trimEnd_prefix (t : Text) : t.trimEnd <+: t := by
  have hsuffix : t.reverse.dropWhile isBlank <:+ t.reverse := List.dropWhile_suffix _
  rwa [← List.reverse_prefix, List.reverse_reverse] at hsuffix

lemma trimStart_of_begins {t : Text} (h : ∀ c ∈ t.head?, isBlank c = false) :
    t.trimStart = t := by
  cases t with
  | nil => rfl
  | cons c t => rw [trimStart, List.dropWhile_cons, h c rfl, if_neg Bool.false_ne_true]

lemma firstLine_cons {c : Char} (hc : isBlank c = false) (t : Text) :
    firstLine (c :: t) = c :: firstLine t := by
  have hne : c ≠ '\n' := by
    rintro rfl
    cases hc
  simp [firstLine, hne]

/-- Where a line begins with something, trimming leaves that. -/
lemma exists_trim_firstLine {c : Char} (hc : isBlank c = false) (t : Text) :
    ∃ u, (firstLine (c :: t)).trim = c :: u ∧ c :: u <+: firstLine (c :: t) := by
  have hbegins : ∀ d ∈ (firstLine (c :: t)).head?, isBlank d = false := by
    rw [firstLine_cons hc]
    rintro d ⟨⟩
    exact hc
  have hstart : (firstLine (c :: t)).trimEnd <+: firstLine (c :: t) := trimEnd_prefix _
  rw [trim, trimStart_of_begins hbegins]
  cases htrim : (firstLine (c :: t)).trimEnd with
  | nil =>
    have hblank := trimEnd_eq_nil.mp htrim c (by rw [firstLine_cons hc]; exact List.mem_cons_self)
    rw [hc] at hblank
    cases hblank
  | cons d u =>
    rw [htrim] at hstart
    obtain rfl : d = c := by
      rw [firstLine_cons hc, List.cons_prefix_cons] at hstart
      exact hstart.1
    exact ⟨u, rfl, hstart⟩

/-- A line that is shown begins as it did, cut or not, and what is added is short. -/
lemma exists_shown (c : Char) (u : Text) :
    ∃ v points : Text,
      (if (c :: u).length ≤ excerptLength then c :: u else (c :: u).take excerptLength ++ "...") =
        c :: (v ++ points) ∧ v <+: u ∧ '\n' ∉ points ∧ (v ++ points).length ≤ 82 := by
  split
  · next hshort =>
    refine ⟨u, [], by rw [List.append_nil], List.prefix_rfl, List.not_mem_nil, ?_⟩
    rw [excerptLength, List.length_cons] at hshort
    rw [List.append_nil]
    omega
  · refine ⟨u.take 79, "...", rfl, List.take_prefix _ _, by decide, ?_⟩
    have hpoints : ("..." : Text).length = 3 := rfl
    rw [List.length_append, List.length_take]
    omega

/-- **What begins with something is quoted by its excerpt.** -/
theorem quotes_excerpt {c : Char} (hc : isBlank c = false) (t : Text) :
    Quotes (c :: t) (excerpt (c :: t)) := by
  obtain ⟨u, hline, hstart⟩ := exists_trim_firstLine hc t
  have hexcerpt : excerpt (c :: t) = if (c :: u).length ≤ excerptLength then c :: u
      else (c :: u).take excerptLength ++ "..." := by
    rw [excerpt, hline]
  obtain ⟨v, points, hshown, hv, hpoints, hlength⟩ := exists_shown c u
  have hnewline : '\n' ∉ c :: u := by
    intro h
    have hne := List.mem_takeWhile_imp (hstart.subset h)
    simp at hne
  refine ⟨?_, ?_, ?_, ?_, ?_, ?_, ?_⟩
  · rw [hexcerpt, hshown]
    exact List.cons_ne_nil _ _
  · rw [hexcerpt, hshown, ← List.cons_append, List.mem_append, not_or]
    have hbegins : c :: v <+: c :: u := List.cons_prefix_cons.mpr ⟨rfl, hv⟩
    exact ⟨fun h => hnewline (hbegins.subset h), hpoints⟩
  · rw [hexcerpt, hshown]
    rintro d ⟨⟩
    exact hc
  · rw [hexcerpt, hshown, List.length_cons]
    omega
  · rw [hline]
    exact hstart.trans (List.takeWhile_prefix _)
  · rw [hexcerpt, hline]
    exact fun h => if_pos h
  · rw [hexcerpt, hline]
    exact fun h => if_neg (Nat.not_le_of_lt h)

end Text

namespace Reply

open Lexeme

variable {T : Theory} {r : Recognizer T}

/-- The expression that is out of place in an answer to the slot, and what is expected
there. -/
inductive Misplaced (r : Recognizer T) : Slot T → Sexp → Text → Sexp → Prop where
  | verdict {s : Sexp} (h : verdictOf? s = none) : Misplaced r .verdict s verdictExpected s
  | model {ctx : Context T} {a : Text} :
      Misplaced r (.model ctx) (.atom a) "a parenthesized model" (.atom a)
  | entry {ctx : Context T} {items : List Sexp} {k : Nat} {s : Sexp}
      (hs : (withoutHead items)[k]? = some s) (h : ∀ d : Definition, s ≠ d.sexp)
      (hbefore : ∀ j < k, ∀ y, ¬ DefectAt r ctx.length (withoutHead items) j y) :
      Misplaced r (.model ctx) (.list items) definitionExpected s

lemma Misplaced.inside {slot : Slot T} {top s : Sexp} {expected : Text}
    (h : Misplaced r slot top expected s) : s.Inside top := by
  cases h with
  | verdict | model => exact .whole _
  | entry hs =>
    have hmem := mem_of_mem_withoutHead (List.mem_of_getElem? hs)
    exact .item (.whole _) hmem

/-! ### One slot -/

lemma nextSexp_eq_unexpectedToken {expected expected' t q : Text}
    (h : nextSexp expected t = .error (.unexpectedToken expected' q)) :
    Sexp.readOne t = .error (.unexpectedClose (skipBlank t)) ∧ q = (skipBlank t).excerpt := by
  unfold nextSexp at h
  split at h
  · cases h
  · cases h
  · next rest hread =>
    obtain rfl : rest = skipBlank t := (Sexp.eq_skipBlank_of_unexpectedClose hread).2
    cases h
    exact ⟨hread, rfl⟩
  · cases h

lemma nextSexp_ne_trailingInput {expected t q : Text} :
    nextSexp expected t ≠ .error (.trailingInput q) := by
  unfold nextSexp
  split <;> exact nofun

/-- **One slot**: what is unexpected in its answer is a closing parenthesis that comes next, or
an expression out of place. -/
theorem decodeSlot_eq_unexpectedToken {slot : Slot T} {t expected q : Text}
    (h : decodeSlot r t slot = .error (.unexpectedToken expected q)) :
    (Sexp.readOne t = .error (.unexpectedClose (skipBlank t)) ∧ q = (skipBlank t).excerpt) ∨
      ∃ top rest s, Sexp.readOne t = .ok (top, rest) ∧ Misplaced r slot top expected s ∧
        q = s.text.excerpt := by
  rcases decodeSlot_eq_error.mp h with ⟨rfl, hverdict⟩ | ⟨ctx, rfl, hmodel⟩
  · rcases decodeVerdict_eq_error.mp hverdict with h | ⟨s, rest, hread, hnone, ⟨⟩⟩
    · exact .inl (nextSexp_eq_unexpectedToken h)
    · exact .inr ⟨s, rest, s, hread, .verdict hnone, rfl⟩
  · rcases decodeModel_eq_error.mp hmodel with h | ⟨a, rest, hread, ⟨⟩⟩ | ⟨items, rest, hread, h⟩
    · exact .inl (nextSexp_eq_unexpectedToken h)
    · exact .inr ⟨.atom a, rest, .atom a, hread, .model, rfl⟩
    · rcases modelOfEntries_eq_error.mp h with ⟨k, ⟨s, hs, hdefect⟩, hbefore⟩ | ⟨-, _, -, ⟨⟩⟩
      cases hdefect with
      | shape hshape => exact .inr ⟨.list items, rest, s, hread, .entry hs hshape hbefore, rfl⟩

lemma decodeSlot_ne_trailingInput {slot : Slot T} {t q : Text} :
    decodeSlot r t slot ≠ .error (.trailingInput q) := by
  intro h
  rcases decodeSlot_eq_error.mp h with ⟨rfl, hverdict⟩ | ⟨ctx, rfl, hmodel⟩
  · rcases decodeVerdict_eq_error.mp hverdict with h | ⟨_, _, -, -, ⟨⟩⟩
    exact nextSexp_ne_trailingInput h
  · rcases decodeModel_eq_error.mp hmodel with h | ⟨_, _, -, ⟨⟩⟩ | ⟨_, _, -, h⟩
    · exact nextSexp_ne_trailingInput h
    · rcases modelOfEntries_eq_error.mp h with ⟨_, ⟨_, -, ⟨⟩⟩, -⟩ | ⟨-, _, -, ⟨⟩⟩

/-! ### What is quoted -/

lemma quotes_skipBlank {t : Text} (h : skipBlank t ≠ []) :
    (skipBlank t).Quotes (skipBlank t).excerpt := by
  have hhead := (head_skipBlank t).1
  obtain ⟨c, u, hu⟩ := List.exists_cons_of_ne_nil h
  rw [hu] at hhead ⊢
  exact Text.quotes_excerpt (hhead c rfl).2 u

lemma quotes_canonical {s : Sexp} (h : s.Canonical) : s.text.Quotes s.text.excerpt := by
  obtain ⟨c, t, ht, hc⟩ := h.exists_cons
  rw [ht]
  exact Text.quotes_excerpt hc t

/-- **Errors quote something usable.** A piece of text that an error quotes is not empty, is
on one line, begins with something other than white space and is of moderate length. Text left
over is quoted from where the answers end, and a closing parenthesis without an opening one
from where it stands, so that both are parts of the reply; anything else that is unexpected is
an expression in the reply, of which the canonical text is quoted. -/
theorem decode_errors_quote {T : Theory} (r : Recognizer T) (slots : List (Slot T)) (t : Text) :
    (∀ q, decode r slots t = .error (.trailingInput q) →
      ∃ answers rest, decodeSlots r slots t = .ok (answers, rest) ∧
        skipBlank rest <:+ t ∧ (skipBlank rest).Quotes q) ∧
    ∀ expected q, decode r slots t = .error (.unexpectedToken expected q) →
      ∃ done slot later answers u, slots = done ++ slot :: later ∧
        decodeSlots r done t = .ok (answers, u) ∧
        ((Sexp.readOne u = .error (.unexpectedClose (skipBlank u)) ∧ skipBlank u <:+ t ∧
            (skipBlank u).head? = some ')' ∧ (skipBlank u).Quotes q) ∨
          ∃ top rest s, Sexp.readOne u = .ok (top, rest) ∧ s.Inside top ∧
            Misplaced r slot top expected s ∧ s.text.Quotes q) := by
  refine ⟨fun q h => ?_, fun expected q h => ?_⟩
  · rcases decode_eq_error.mp h with h | ⟨answers, rest, hslots, hleft, ⟨⟩⟩
    · obtain ⟨_, slot, _, _, u, -, -, hslot⟩ := decodeSlots_eq_error.mp h
      exact absurd hslot decodeSlot_ne_trailingInput
    · refine ⟨answers, rest, hslots, ?_, quotes_skipBlank hleft⟩
      exact (skipBlank_suffix rest).trans (suffix_of_decodeSlots hslots)
  · rcases decode_eq_error.mp h with h | ⟨_, _, -, -, ⟨⟩⟩
    obtain ⟨done, slot, later, answers, u, hsplit, hdone, hslot⟩ :=
      decodeSlots_eq_error.mp h
    refine ⟨done, slot, later, answers, u, hsplit, hdone, ?_⟩
    rcases decodeSlot_eq_unexpectedToken hslot with ⟨hread, rfl⟩ | ⟨top, rest, s, hread, hs, rfl⟩
    · have hhead : (skipBlank u).head? = some ')' := (Sexp.suffix_of_unexpectedClose hread).2
      have hne : skipBlank u ≠ [] := by
        intro hnil
        rw [hnil] at hhead
        cases hhead
      have hsuffix := (skipBlank_suffix u).trans (suffix_of_decodeSlots hdone)
      exact .inl ⟨hread, hsuffix, hhead, quotes_skipBlank hne⟩
    · have hcanonical := Sexp.canonical_of_inside hread hs.inside
      exact .inr ⟨top, rest, s, hread, hs.inside, hs, quotes_canonical hcanonical⟩

/-- A second answer where one is owed. -/
def leftoverReply : Text := "sat ; done\n unsat \n"

lemma readOne_leftoverReply :
    Sexp.readOne leftoverReply = .ok (.atom "sat", " ; done\n unsat \n") := by
  cbv

lemma decode_leftoverReply :
    decode (T := arith) [] [.verdict] leftoverReply = .error (.trailingInput "unsat") := by
  have hslots : decodeSlots (T := arith) [] [.verdict] leftoverReply =
      .ok ([.verdict .sat], " ; done\n unsat \n") :=
    decodeSlots_cons_eq_ok.mpr
      ⟨_, _, _, [], readOne_leftoverReply, .verdict (v := .sat) (by decide), rfl, rfl⟩
  exact decode_eq_error.mpr (.inr ⟨_, _, hslots, by decide, by decide +kernel⟩)

/-- A quoted atom of two lines where a definition is expected. -/
def barredReply : Text := "sat (|a\nb|)"

lemma readOne_barredReply : Sexp.readOne barredReply = .ok (.atom "sat", " (|a\nb|)") := by
  cbv

lemma readOne_barredModel : Sexp.readOne " (|a\nb|)" = .ok (.list [.atom "|a\nb|"], []) := by
  cbv

lemma decode_barredReply :
    decode (T := arith) [] [.verdict, .model []] barredReply =
      .error (.unexpectedToken definitionExpected "|a") := by
  have hverdict : decodeSlots (T := arith) [] [.verdict] barredReply =
      .ok ([.verdict .sat], " (|a\nb|)") :=
    decodeSlots_cons_eq_ok.mpr
      ⟨_, _, _, [], readOne_barredReply, .verdict (v := .sat) (by decide), rfl, rfl⟩
  have hmodel : decodeModel (T := arith) [] [] " (|a\nb|)" =
      .error (.unexpectedToken definitionExpected "|a") :=
    (decodeModel_eq_error_of_list readOne_barredModel).mpr rfl
  have hslot := decodeSlot_eq_error.mpr (.inr ⟨[], rfl, hmodel⟩)
  exact decode_eq_error.mpr (.inl (decodeSlots_eq_error.mpr
    ⟨[.verdict], .model [], [], _, _, rfl, hverdict, hslot⟩))

theorem sample_errors_quote :
    (∃ source : Text, source <:+ leftoverReply ∧ source.Quotes "unsat") ∧
      ∃ source : Text, (source <:+ barredReply ∨ ∃ s : Sexp, source = s.text) ∧
        source.Quotes "|a" := by
  refine ⟨?_, ?_⟩
  · obtain ⟨_, rest, -, hsuffix, hquotes⟩ :=
      (decode_errors_quote (T := arith) _ _ _).1 _ decode_leftoverReply
    exact ⟨_, hsuffix, hquotes⟩
  · obtain ⟨_, _, _, _, u, -, -, h⟩ :=
      (decode_errors_quote (T := arith) _ _ _).2 _ _ decode_barredReply
    rcases h with ⟨-, hsuffix, -, hquotes⟩ | ⟨_, _, s, -, -, -, hquotes⟩
    · exact ⟨_, .inl hsuffix, hquotes⟩
    · exact ⟨_, .inr ⟨s, rfl⟩, hquotes⟩

end Reply

end SmtScript
