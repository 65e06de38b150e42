import Backtrack.Proofs.Formats

/-!
The format of words: words of letters with white space between them, within one line. The words that
are read of such a text are the pieces that the white space leaves of it. So it is read in one way
only, although the grammar may go back to any part of a word and to less white space.
-/

namespace Backtrack

namespace Text

def IsGap (s : Text) : Prop := s ≠ [] ∧ IsBlankRun s

instance (s : Text) : Decidable (IsGap s) := inferInstanceAs (Decidable (_ ∧ _))

def WritesWord (s w : Text) : Prop := IsWord s ∧ s = w

/-- The parts of a text between one run of white space and the next. -/
def pieces (t : Text) : List Text := (t.splitOnP isInlineBlank).filter (· ≠ [])

/-! ### The pieces of a text -/

theorem pieces_append_blank (s t : Text) {c : Char} (hc : isInlineBlank c) :
    pieces (s ++ c :: t) = pieces s ++ pieces t := by
  rw [pieces, List.splitOnP_append_cons s t hc, List.filter_append]
  rfl

theorem pieces_blanks_append {blanks : Text} (h : IsBlankRun blanks) (t : Text) :
    pieces (blanks ++ t) = pieces t := by
  induction blanks with
  | nil => rfl
  | cons c blanks ih =>
      obtain ⟨hc, hblanks⟩ := List.forall_mem_cons.mp h
      have hfirst := pieces_append_blank [] (blanks ++ t) (isInlineBlank_iff.mpr hc)
      exact hfirst.trans (ih hblanks)

theorem pieces_word {w : Text} (hw : IsWord w) : pieces w = [w] := by
  have hnone : ∀ c ∈ w, isInlineBlank c = false :=
    fun c hc => Bool.eq_false_iff.mpr fun hblank => apart_blank_alpha c hblank (hw.2 c hc)
  rw [pieces, List.splitOnP_eq_singleton hnone]
  simp [hw.1]

theorem pieces_eq_of_separated {s : Text} {ws : List Text} (h : Separated WritesWord IsGap s ws) :
    pieces s = ws := by
  induction h with
  | last h =>
      obtain ⟨hw, rfl⟩ := h
      exact pieces_word hw
  | @more s g t w ws h hg _ ih =>
      obtain ⟨hw, rfl⟩ := h
      obtain ⟨hne, hblanks⟩ := hg
      -- The first blank of the gap ends the piece before it, and the others add none.
      obtain ⟨c, blanks, rfl⟩ := List.exists_cons_of_ne_nil hne
      obtain ⟨hc, hblanks⟩ := List.forall_mem_cons.mp hblanks
      rw [List.append_assoc, List.cons_append, pieces_append_blank s _ (isInlineBlank_iff.mpr hc),
        pieces_word hw, pieces_blanks_append hblanks, ih, List.singleton_append]

end Text

namespace Kind

open Text Grammar

/-! ### The grammar of words -/

theorem denotes_gap : ∃ L, (many1 whitespace).Denotes L ∧ ∀ s, (∃ v, L s v) ↔ IsGap s := by
  refine ⟨_, (denotes_satisfy isInlineBlank).many1 (.satisfy _), fun s => ?_⟩
  simp only [isInlineBlank_iff, exists_and_left, exists_eq', and_true]
  exact Iff.rfl

theorem consumes_gap : (many1 whitespace).Consumes := .repeated (.satisfy _) Nat.one_pos

theorem runComplete_words_iff {s : Text} {j : Json} :
    (words.parser.runComplete s).result = some (.ok j) ↔
      ∃ ws, Separated WritesWord IsGap s ws ∧ .array (ws.map .string) = j := by
  obtain ⟨L, hseparator, hgap⟩ := denotes_gap
  have hitem : ∀ s j, (∃ v : Value, (IsWord s ∧ .text s = v) ∧ v.toJson = j) ↔
      ∃ w, WritesWord s w ∧ Json.string w = j := by
    intro s j
    constructor
    · rintro ⟨_, ⟨hs, rfl⟩, rfl⟩
      exact ⟨s, ⟨hs, rfl⟩, by rw [Value.toJson]⟩
    · rintro ⟨_, ⟨hs, rfl⟩, rfl⟩
      exact ⟨.text s, ⟨hs, rfl⟩, by rw [Value.toJson]⟩
  exact runComplete_array_iff rfl denotes_name hseparator consumes_gap hitem hgap fun _ => rfl

/-- **The format of words.** A text is read as a whole, with some texts as its value, if and only if
it consists of these, each of them a word of letters, with white space between each two; nothing
else is ever the value of a whole text. So the words are the pieces of the text between its runs of
white space. In particular any words, joined by any white space, are read as these words. -/
theorem words_read_what_is_written :
    (∀ s ws, (words.parser.runComplete s).result = some (.ok (.array (ws.map .string))) ↔
      Separated WritesWord IsGap s ws) ∧
    (∀ s j, (words.parser.runComplete s).result = some (.ok j) →
      j = .array ((pieces s).map .string)) ∧
    ∀ (w : { w // IsWord w }) (more : List (Text × { w // IsWord w })), (∀ p ∈ more, IsGap p.1) →
      (words.parser.runComplete (w.1 ++ more.flatMap fun p => p.1 ++ p.2.1)).result =
        some (.ok (.array ((w :: more.map (·.2)).map fun w => .string w.1))) := by
  refine ⟨fun s ws => ?_, fun s j hrun => ?_, fun w more hgap => ?_⟩
  · rw [runComplete_words_iff]
    constructor
    · rintro ⟨ws', hws, heq⟩
      have hinjective : Function.Injective Json.string := fun _ _ => Json.string.inj
      rwa [← List.map_injective_iff.mpr hinjective (Json.array.inj heq)]
    · exact fun hws => ⟨ws, hws, rfl⟩
  · obtain ⟨ws, hws, rfl⟩ := runComplete_words_iff.mp hrun
    rw [pieces_eq_of_separated hws]
  · rw [runComplete_words_iff]
    have hword : ∀ w : { w // IsWord w }, WritesWord w.1 w.1 := fun w => ⟨w.2, rfl⟩
    refine ⟨_, separated_join hword w hgap, ?_⟩
    rw [List.map_map]
    rfl

/-- Three words, with white space of several kinds between them. -/
theorem words_read_what_is_written_blanks :
    let s : Text := ['o', 'K', ' ', '\t', 'a', '\u00a0', 'b', 'c']
    let ws : List Text := [['o', 'K'], ['a'], ['b', 'c']]
    let more : List (Text × { w // IsWord w }) :=
      [([' ', '\t'], ⟨['a'], by decide⟩), (['\u00a0'], ⟨['b', 'c'], by decide⟩)]
    (∀ p ∈ more, IsGap p.1) ∧
      (words.parser.runComplete s).result = some (.ok (.array (ws.map .string))) ∧
      Separated WritesWord IsGap s ws ∧ pieces s = ws := by
  intro s ws more
  have hgap : ∀ p ∈ more, IsGap p.1 := by decide
  have hrun : (words.parser.runComplete s).result = some (.ok (.array (ws.map .string))) :=
    words_read_what_is_written.2.2 ⟨['o', 'K'], by decide⟩ more hgap
  have hws : Separated WritesWord IsGap s ws := (words_read_what_is_written.1 s ws).mp hrun
  exact ⟨hgap, hrun, hws, pieces_eq_of_separated hws⟩

end Kind

end Backtrack
