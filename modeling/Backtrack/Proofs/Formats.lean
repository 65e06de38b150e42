import Backtrack.Proofs.Integers
import Backtrack.Proofs.Language
import Backtrack.Proofs.Objects
import Backtrack.Proofs.ReadyMade

/-!
The formats that the ready-made grammars read, described without reading: integers with commas
between them, and keys with a value each. A text that is read as a whole is in the format and has
the value that it writes, and whatever is in the format is read, in spite of all the ways in which
digits, letters and white space can be split.
-/

namespace Backtrack

namespace Text

/-! ### Parts of the formats -/

/-- White space within a line, or nothing. -/
def IsBlankRun (s : Text) : Prop := ∀ c ∈ s, isBlank c ∧ c ≠ '\n'

def IsCommaGap (s : Text) : Prop := ∃ blanks, IsBlankRun blanks ∧ ',' :: blanks = s

def IsWord (s : Text) : Prop := s ≠ [] ∧ ∀ c ∈ s, c.isAlpha

inductive WritesScalar : Text → Json → Prop
  | integer {s : Text} {n : ℤ} (h : WritesInt64 s n) : WritesScalar s (.integer n)
  | word {s : Text} (h : IsWord s) : WritesScalar s (.string s)

/-- A word as the key, an equals sign and a value, with white space around the sign. -/
inductive WritesBinding : Text → Text × Json → Prop
  | mk {key blanks blanks' s : Text} {j : Json} (hkey : IsWord key) (h : IsBlankRun blanks)
      (h' : IsBlankRun blanks') (hs : WritesScalar s j) :
      WritesBinding (key ++ blanks ++ ('=' :: blanks' ++ s)) (key, j)

theorem isInlineBlank_iff {c : Char} : isInlineBlank c ↔ isBlank c ∧ c ≠ '\n' := by
  rw [isInlineBlank, Bool.and_eq_true, bne_iff_ne]

instance (s : Text) : Decidable (IsBlankRun s) :=
  decidable_of_iff (s.all isInlineBlank) (by simp only [List.all_eq_true, isInlineBlank_iff]; rfl)

instance (s : Text) : Decidable (IsWord s) :=
  decidable_of_iff (s ≠ [] ∧ s.all Char.isAlpha) (by rw [List.all_eq_true]; rfl)

end Text

namespace Grammar

open Text

/-! ### Numbers, words and white space -/

theorem denotes_char (c : Char) : (char c).Denotes fun s v => [c] = s ∧ .text [c] = v := by
  refine (denotes_satisfy (· == c)).congr fun s v => ⟨?_, ?_⟩
  · rintro ⟨hc⟩
    rw [beq_iff_eq.mp hc]
    exact ⟨rfl, rfl⟩
  · rintro ⟨rfl, rfl⟩
    exact .mk (beq_self_eq_true c)

theorem denotes_many_whitespace :
    (many whitespace).Denotes fun s v => IsBlankRun s ∧ characters s = v := by
  refine ((denotes_satisfy isInlineBlank).run (.satisfy _) (.atLeast 0)).congr fun s v => ?_
  simp only [isInlineBlank_iff, admits_atLeast, Nat.zero_le, true_and]
  exact Iff.rfl

theorem denotes_alpha : alpha.Denotes (Language.Single Char.isAlpha) := by
  refine ((denotes_satisfy _).or (denotes_satisfy _)).congr fun s v => ⟨?_, ?_⟩
  · rintro (⟨⟨h⟩⟩ | ⟨⟨h⟩⟩)
    · exact .mk (isAlpha_iff.mpr (.inl h))
    · exact .mk (isAlpha_iff.mpr (.inr h))
  · rintro ⟨h⟩
    rcases isAlpha_iff.mp h with h | h
    · exact .inl (.mk h)
    · exact .inr (.mk h)

theorem denotes_name : name.Denotes fun s v => IsWord s ∧ .text s = v := by
  refine ((denotes_alpha.many1 consumes_alpha).map asText).congr fun s v => ⟨?_, ?_⟩
  · rintro ⟨_, ⟨hs, rfl⟩, rfl⟩
    exact ⟨hs, by rw [asText, toText_characters]⟩
  · rintro ⟨hs, rfl⟩
    exact ⟨_, ⟨hs, rfl⟩, by rw [asText, toText_characters]⟩

theorem denotes_int : int.Denotes fun s v => ∃ m : Int64, WritesInt64 s m.toInt ∧ .int m = v := by
  have hminus := (denotes_char '-').optional
  have hdigits := (denotes_satisfy Char.isDigit).many1 (.satisfy _)
  rw [int_eq_filterMap]
  refine ((hminus.and hdigits).filterMap _).congr fun s v => ⟨?_, ?_⟩
  · rintro ⟨_, ⟨hsign, ⟨-, rfl⟩⟩, hread⟩
    obtain ⟨m, hm, rfl⟩ := Option.map_eq_some_iff.mp hread
    refine ⟨m, readInt64?_eq_some_iff.mp ?_, rfl⟩
    obtain ⟨rfl, rfl⟩ | _ := hsign
    · simpa [Value.toText] using hm
    · simpa [Value.toText] using hm
  · rintro ⟨m, hm, rfl⟩
    have hread := readInt64?_eq_some_iff.mpr hm
    obtain ⟨digits, hdigits, rfl | rfl⟩ := hm.writes.exists_digits
    · refine ⟨.pair .none (characters digits), ?_, by simp [Value.toText, hread]⟩
      change Language.Pair _ _ ([] ++ digits) _
      exact .mk .absent ⟨hdigits, rfl⟩
    · refine ⟨.pair (.some (.text ['-'])) (characters digits), ?_, by simp [Value.toText, hread]⟩
      change Language.Pair _ _ (['-'] ++ digits) _
      exact .mk (.present ⟨rfl, rfl⟩) ⟨hdigits, rfl⟩

end Grammar

namespace Kind

open Text Grammar

/-! ### The parts of the grammars -/

theorem denotes_comma : ∃ L, comma.Denotes L ∧ ∀ s, (∃ v, L s v) ↔ IsCommaGap s := by
  refine ⟨_, (denotes_char ',').and denotes_many_whitespace, fun s => ⟨?_, ?_⟩⟩
  · rintro ⟨_, ⟨⟨rfl, rfl⟩, ⟨hblanks, rfl⟩⟩⟩
    exact ⟨_, hblanks, rfl⟩
  · rintro ⟨blanks, hblanks, rfl⟩
    refine ⟨.pair (.text [',']) (characters blanks), ?_⟩
    change Language.Pair _ _ ([','] ++ blanks) _
    exact .mk ⟨rfl, rfl⟩ ⟨hblanks, rfl⟩

theorem denotes_padded {p : Grammar} {P : Language} (hp : p.Denotes P) :
    (padded p).Denotes fun s v => ∃ t blanks, P t v ∧ IsBlankRun blanks ∧ t ++ blanks = s := by
  refine ((hp.and denotes_many_whitespace).map Value.first).congr fun s v => ⟨?_, ?_⟩
  · rintro ⟨_, ⟨ht, ⟨hblanks, rfl⟩⟩, rfl⟩
    exact ⟨_, _, ht, hblanks, rfl⟩
  · rintro ⟨t, blanks, ht, hblanks, rfl⟩
    exact ⟨_, .mk ht ⟨hblanks, rfl⟩, rfl⟩

theorem writesScalar_iff {s : Text} {j : Json} :
    WritesScalar s j ↔
      ∃ v : Value, ((∃ m : Int64, WritesInt64 s m.toInt ∧ .int m = v) ∨ IsWord s ∧ .text s = v) ∧
        v.toJson = j := by
  constructor
  · intro h
    cases h with
    | integer h =>
        obtain ⟨m, hm, rfl⟩ := h.exists_toInt
        exact ⟨.int m, .inl ⟨m, hm, rfl⟩, by rw [Value.toJson]⟩
    | word h => exact ⟨.text s, .inr ⟨h, rfl⟩, by rw [Value.toJson]⟩
  · rintro ⟨v, ⟨m, hm, rfl⟩ | ⟨hs, rfl⟩, rfl⟩
    · rw [Value.toJson]
      exact .integer hm
    · rw [Value.toJson]
      exact .word hs

theorem denotes_binding :
    ∃ L, binding.Denotes L ∧ ∀ s b,
      (∃ v, L s v ∧ (v.first.toText, v.second.second.toJson) = b) ↔ WritesBinding s b := by
  refine ⟨_, (denotes_padded denotes_name).and
    ((denotes_padded (denotes_char '=')).and (denotes_int.or denotes_name)), fun s b => ⟨?_, ?_⟩⟩
  · rintro ⟨_, ⟨hkey, ⟨hequals, hvalue⟩⟩, rfl⟩
    obtain ⟨key, blanks, ⟨hkey, rfl⟩, hblanks, rfl⟩ := hkey
    obtain ⟨_, blanks', ⟨rfl, rfl⟩, hblanks', rfl⟩ := hequals
    exact .mk hkey hblanks hblanks' (writesScalar_iff.mpr ⟨_, hvalue, rfl⟩)
  · rintro ⟨hkey, hblanks, hblanks', hvalue⟩
    obtain ⟨v, hv, rfl⟩ := writesScalar_iff.mp hvalue
    refine ⟨.pair (.text _) (.pair (.text ['=']) v), ?_, rfl⟩
    exact .mk ⟨_, _, ⟨hkey, rfl⟩, hblanks, rfl⟩ (.mk ⟨_, _, ⟨rfl, rfl⟩, hblanks', rfl⟩ hv)

/-! ### Lists -/

theorem eq_of_rest_eq {k : Kind} {s : Text} {a b : Alternative Value}
    (ha : a ∈ k.grammar.alternatives s) (hb : b ∈ k.grammar.alternatives s)
    (h : a.rest = b.rest) : a = b := by
  have hnodup : (k.grammar.rests s).Nodup := (rests_growing k s).imp fun hlt heq =>
    Nat.ne_of_lt hlt (congrArg List.length heq)
  exact List.inj_on_of_nodup_map hnodup ha hb h

section Lists

variable {k : Kind} {p q : Grammar} {P Q : Language} {β : Type} {f : Value → β}
  {Item : Text → β → Prop} {Gap : Text → Prop} {s : Text}
  (hk : k.grammar = separatedBy p q) (hp : p.Denotes P) (hq : q.Denotes Q) (hc : q.Consumes)
  (hitem : ∀ s x, (∃ v, P s v ∧ f v = x) ↔ Item s x) (hgap : ∀ s, (∃ v, Q s v) ↔ Gap s)

include hk hp hq hc in
theorem mem_alternatives_list_iff {v : Value} :
    ⟨v, []⟩ ∈ k.grammar.alternatives s ↔
      ∃ vs, Separated P (fun g => ∃ w, Q g w) s vs ∧ .list vs = v := by
  rw [hk, (hp.separatedBy hq hc).mem_alternatives_iff]
  simp only [List.append_nil, exists_eq_left]

include hitem hgap in
theorem separated_iff {xs : List β} :
    Separated Item Gap s xs ↔ ∃ vs, Separated P (fun g => ∃ w, Q g w) s vs ∧ vs.map f = xs := by
  rw [← separated_map_iff]
  exact separated_congr (fun s x => (hitem s x).symm) fun s => (hgap s).symm

include hk hp hq hc hitem hgap

/-- A run for the whole text finds what the items in it stand for. -/
theorem runComplete_list_iff {F : List β → Json} (hjson : ∀ vs, k.toJson (.list vs) = F (vs.map f))
    {j : Json} :
    (k.parser.runComplete s).result = some (.ok j) ↔
      ∃ xs, Separated Item Gap s xs ∧ F xs = j := by
  rw [(k.greedy s).runComplete_eq_ok_iff, toList_alternatives, List.mem_map]
  simp only [separated_iff hitem hgap]
  constructor
  · rintro ⟨⟨v, r⟩, hmem, heq⟩
    obtain ⟨hj, rfl⟩ := Alternative.mk.inj heq
    obtain ⟨vs, hvs, rfl⟩ := (mem_alternatives_list_iff hk hp hq hc).mp hmem
    exact ⟨vs.map f, ⟨vs, hvs, rfl⟩, (hjson vs).symm.trans hj⟩
  · rintro ⟨_, ⟨vs, hvs, rfl⟩, rfl⟩
    refine ⟨⟨.list vs, []⟩, (mem_alternatives_list_iff hk hp hq hc).mpr ⟨vs, hvs, rfl⟩, ?_⟩
    rw [Alternative.map, hjson]

/-- A text is made up of items and gaps in one way only, as far as the items matter. -/
theorem separated_unique {xs ys : List β} (hxs : Separated Item Gap s xs)
    (hys : Separated Item Gap s ys) : xs = ys := by
  rw [separated_iff hitem hgap] at hxs hys
  obtain ⟨vs, hvs, rfl⟩ := hxs
  obtain ⟨ws, hws, rfl⟩ := hys
  have hv := (mem_alternatives_list_iff hk hp hq hc).mpr ⟨vs, hvs, rfl⟩
  have hw := (mem_alternatives_list_iff hk hp hq hc).mpr ⟨ws, hws, rfl⟩
  cases eq_of_rest_eq hv hw rfl
  rfl

end Lists

theorem toJson_list (vs : List Value) : (Value.list vs).toJson = .array (vs.map Value.toJson) := by
  rw [Value.toJson]
  congr 1
  induction vs with
  | nil => rfl
  | cons v vs ih => rw [Value.toJson.itemsJson, ih, List.map_cons]

theorem runComplete_array_iff {k : Kind} {p q : Grammar} {P Q : Language} {γ : Type}
    {Writes : Text → γ → Prop} {form : γ → Json} {Gap : Text → Prop} {s : Text}
    (hk : k.grammar = separatedBy p q) (hp : p.Denotes P) (hq : q.Denotes Q) (hc : q.Consumes)
    (hitem : ∀ s j, (∃ v, P s v ∧ v.toJson = j) ↔ ∃ x, Writes s x ∧ form x = j)
    (hgap : ∀ s, (∃ v, Q s v) ↔ Gap s) (hjson : ∀ v, k.toJson v = v.toJson) {j : Json} :
    (k.parser.runComplete s).result = some (.ok j) ↔
      ∃ xs, Separated Writes Gap s xs ∧ .array (xs.map form) = j := by
  have harray : ∀ vs, k.toJson (.list vs) = .array (vs.map Value.toJson) :=
    fun vs => (hjson _).trans (toJson_list vs)
  rw [runComplete_list_iff hk hp hq hc hitem hgap harray]
  simp only [separated_map_iff]
  constructor
  · rintro ⟨_, ⟨xs, hxs, rfl⟩, hj⟩
    exact ⟨xs, hxs, hj⟩
  · rintro ⟨xs, hxs, hj⟩
    exact ⟨_, ⟨xs, hxs, rfl⟩, hj⟩

theorem runComplete_ints_iff {s : Text} {j : Json} :
    (ints.parser.runComplete s).result = some (.ok j) ↔
      ∃ ns, Separated WritesInt64 IsCommaGap s ns ∧ .array (ns.map .integer) = j := by
  obtain ⟨L, hcomma, hgap⟩ := denotes_comma
  have hitem : ∀ s j, (∃ v : Value, (∃ m : Int64, WritesInt64 s m.toInt ∧ .int m = v) ∧
      v.toJson = j) ↔ ∃ n, WritesInt64 s n ∧ Json.integer n = j := by
    intro s j
    constructor
    · rintro ⟨_, ⟨m, hm, rfl⟩, rfl⟩
      exact ⟨m.toInt, hm, by rw [Value.toJson]⟩
    · rintro ⟨n, hn, rfl⟩
      obtain ⟨m, hm, rfl⟩ := hn.exists_toInt
      exact ⟨.int m, ⟨m, hm, rfl⟩, by rw [Value.toJson]⟩
  exact runComplete_array_iff rfl denotes_int hcomma consumes_comma hitem hgap fun _ => rfl

/-- **The format of integers.** A text is read as a whole, with some integers as its value, if and
only if it consists of texts that write these integers in 64 bits, with a comma and perhaps white
space between each two; nothing else is ever the value of a whole text. In particular the decimal
texts of any 64-bit integers, joined in this way, are read as these integers. -/
theorem ints_read_what_is_written :
    (∀ s ns, (ints.parser.runComplete s).result = some (.ok (.array (ns.map .integer))) ↔
      Separated WritesInt64 IsCommaGap s ns) ∧
    (∀ s j, (ints.parser.runComplete s).result = some (.ok j) →
      ∃ ns : List ℤ, j = .array (ns.map .integer)) ∧
    ∀ (m : Int64) (more : List (Text × Int64)), (∀ p ∈ more, IsBlankRun p.1) →
      (ints.parser.runComplete (ofInt m.toInt ++
        more.flatMap fun p => ',' :: p.1 ++ ofInt p.2.toInt)).result =
      some (.ok (.array ((m :: more.map (·.2)).map fun n => .integer n.toInt))) := by
  refine ⟨fun s ns => ?_, fun s j hrun => ?_, fun m more hblanks => ?_⟩
  · rw [runComplete_ints_iff]
    constructor
    · rintro ⟨ns', hns, heq⟩
      have hinjective : Function.Injective Json.integer := fun _ _ => Json.integer.inj
      rwa [← List.map_injective_iff.mpr hinjective (Json.array.inj heq)]
    · exact fun hns => ⟨ns, hns, rfl⟩
  · obtain ⟨ns, -, rfl⟩ := runComplete_ints_iff.mp hrun
    exact ⟨ns, rfl⟩
  · rw [runComplete_ints_iff]
    have hgap : ∀ p ∈ more.map fun p => (',' :: p.1, p.2), IsCommaGap p.1 := by
      intro p hp
      obtain ⟨q, hq, rfl⟩ := List.mem_map.mp hp
      exact ⟨q.1, hblanks q hq, rfl⟩
    have hjoin := separated_join writesInt64_ofInt m hgap
    rw [List.flatMap_map, List.map_map] at hjoin
    refine ⟨_, hjoin, ?_⟩
    rw [List.map_map]
    rfl

/-- Blanks of different kinds, zero and the least integer of all. -/
theorem ints_read_what_is_written_least :
    (∀ p ∈ [([' ', '\t'], (0 : Int64)), (['\u00a0'], Int64.minValue)], IsBlankRun p.1) ∧
      (ints.parser.runComplete ("-7, \t0,\u00a0-9223372036854775808".toList)).result =
        some (.ok (.array [.integer (-7), .integer 0, .integer (-9223372036854775808)])) := by
  have hblanks : ∀ p ∈ [([' ', '\t'], (0 : Int64)), (['\u00a0'], Int64.minValue)],
      IsBlankRun p.1 := by
    decide
  exact ⟨hblanks, ints_read_what_is_written.2.2 (-7) _ hblanks⟩

/-- **The format of keys and values.** A text is read as a whole if and only if it consists of
bindings with a comma and perhaps white space between each two, and in one way only. Its value is
the object that has exactly the keys of the bindings, each once and in their order, with the value
of its last binding. -/
theorem keyValue_reads_what_is_written (s : Text) :
    (∀ j, (keyValue.parser.runComplete s).result = some (.ok j) ↔
      ∃ bindings fields, Separated WritesBinding IsCommaGap s bindings ∧ j = .object fields ∧
        Json.Ordered fields ∧ (∀ k, k ∈ fields.map Prod.fst ↔ k ∈ bindings.map Prod.fst) ∧
        ∀ k v, (k, v) ∈ fields ↔ Json.LastBinding bindings k v) ∧
    ∀ bindings bindings', Separated WritesBinding IsCommaGap s bindings →
      Separated WritesBinding IsCommaGap s bindings' → bindings = bindings' := by
  obtain ⟨L, hcomma, hgap⟩ := denotes_comma
  obtain ⟨L', hbinding, hitem⟩ := denotes_binding
  have hread : ∀ j, (keyValue.parser.runComplete s).result = some (.ok j) ↔
      ∃ bindings, Separated WritesBinding IsCommaGap s bindings ∧ .sorted bindings = j := fun j =>
    runComplete_list_iff rfl hbinding hcomma consumes_comma hitem hgap fun _ => rfl
  refine ⟨fun j => ?_, fun bindings bindings' => ?_⟩
  · simp only [hread, Json.sorted_eq_iff, exists_and_left]
  · exact separated_unique (k := keyValue) rfl hbinding hcomma consumes_comma hitem hgap

/-- A key that is bound twice, with white space around a sign and behind a comma. -/
theorem keyValue_reads_what_is_written_twice :
    let s : Text := ['b', '=', '1', ',', ' ', 'a', ' ', '=', 'x', ',', 'b', '=', '-', '2']
    let bindings : List (Text × Json) :=
      [(['b'], .integer 1), (['a'], .string ['x']), (['b'], .integer (-2))]
    Separated WritesBinding IsCommaGap s bindings ∧
      (keyValue.parser.runComplete s).result =
        some (.ok (.object [(['a'], .string ['x']), (['b'], .integer (-2))])) ∧
      ∀ bindings', Separated WritesBinding IsCommaGap s bindings' → bindings' = bindings := by
  intro s bindings
  have hone : WritesInt64 ['1'] 1 := (readInt64?_eq_some_iff (m := 1)).mp (by decide)
  have hminus : WritesInt64 ['-', '2'] (-2) := (readInt64?_eq_some_iff (m := -2)).mp (by decide)
  have hs : Separated WritesBinding IsCommaGap s bindings := by
    have hfirst : WritesBinding ['b', '=', '1'] (['b'], .integer 1) :=
      @WritesBinding.mk ['b'] [] [] ['1'] _ (by decide) (by decide) (by decide) (.integer hone)
    have hsecond : WritesBinding ['a', ' ', '=', 'x'] (['a'], .string ['x']) :=
      @WritesBinding.mk ['a'] [' '] [] ['x'] _ (by decide) (by decide) (by decide)
        (.word (by decide))
    have hthird : WritesBinding ['b', '=', '-', '2'] (['b'], .integer (-2)) :=
      @WritesBinding.mk ['b'] [] [] ['-', '2'] _ (by decide) (by decide) (by decide)
        (.integer hminus)
    have hgap : IsCommaGap [',', ' '] := ⟨[' '], by decide, rfl⟩
    have hgap' : IsCommaGap [','] := ⟨[], by decide, rfl⟩
    have hrest : Separated WritesBinding IsCommaGap
        (['a', ' ', '=', 'x'] ++ [','] ++ ['b', '=', '-', '2']) bindings.tail :=
      .more hsecond hgap' (.last hthird)
    exact .more hfirst hgap hrest
  have hsorted : Json.sorted bindings =
      .object [(['a'], .string ['x']), (['b'], .integer (-2))] := rfl
  obtain ⟨fields, hfields⟩ := Json.sorted_eq_iff.mp hsorted
  refine ⟨hs, ?_, fun bindings' h => (keyValue_reads_what_is_written s).2 bindings' bindings h hs⟩
  exact ((keyValue_reads_what_is_written s).1 _).mpr ⟨bindings, fields, hs, hfields⟩

end Kind

end Backtrack
