import Backtrack.Proofs.LongestFirst

/-!
Nested brackets. A rule that refers to itself twice, once between two brackets and once behind them,
offers the balanced beginnings of a text, each once and the longest first: inside the brackets only
the longest of them can be followed by a bracket that closes, as behind any other one a bracket
opens. So with the end of the text asked for, at most one alternative is left, and it is there
exactly on balanced texts.
-/

namespace Backtrack

namespace Text

inductive Balanced : Text → Prop
  | empty : Balanced []
  | nested {s t : Text} (hs : Balanced s) (ht : Balanced t) : Balanced ('(' :: s ++ ')' :: t)

end Text

namespace Nesting

open Grammar
open Text (Balanced)

/-- The rule of nested brackets: a nesting in brackets and another one behind it, or nothing, which
has the value `e`. -/
def rules (e : Value) : Rules :=
  [("nest", .or (.and (surroundedBy (.rule "nest") (char '(') (char ')')) (.rule "nest"))
    (.succeed e))]

def complete : Grammar := .and (.rule "nest") endOfInput

variable (e : Value) {t : Text}

theorem guarded : (rules e).Guarded := by
  refine Rules.get_induction .fail fun rule hrule => ?_
  obtain rfl := List.mem_singleton.mp hrule
  have hopen : (char '(').Consumes := .satisfy _
  exact .or (.andBehind (.map (.andBehind (.satisfy _) hopen)) (.map (.andFirst hopen)))
    (.succeed e)

def alternatives (t : Text) : List (Alternative Value) :=
  (Grammar.rule "nest").alternativesOver (rules e) t

def rests (t : Text) : List Text := (alternatives e t).map (·.rest)

/-- Behind the content of brackets: the bracket that closes, and another nesting. -/
def behind (content : Alternative Value) : List (Alternative Value) :=
  match content.rest with
  | ')' :: t => (alternatives e t).map (Alternative.map (.pair content.value))
  | _ => []

def restsBehind : Text → List Text
  | ')' :: t => rests e t
  | _ => []

/-! ### One equation for each beginning of a text -/

theorem alternatives_eq (t : Text) :
    alternatives e t =
      ((surroundedBy (.rule "nest") (char '(') (char ')')).alternativesOver (rules e) t).flatMap
        (fun a => (alternatives e a.rest).map (Alternative.map (.pair a.value))) ++ [⟨e, t⟩] := by
  have hget : (rules e).get "nest" =
      .or (.and (surroundedBy (.rule "nest") (char '(') (char ')')) (.rule "nest"))
        (.succeed e) := rfl
  rw [alternatives, alternativesOver_rule (guarded e), hget, alternativesOver_or (guarded e),
    alternativesOver_and (guarded e)]
  rfl

theorem alternativesOver_char_cons (c d : Char) (t : Text) :
    (char c).alternativesOver (rules e) (d :: t) = if d = c then [⟨.text [d], t⟩] else [] := by
  rw [char, alternativesOver_satisfy_cons]
  simp only [beq_iff_eq]

theorem alternatives_of_head_ne (h : t.head? ≠ some '(') : alternatives e t = [⟨e, t⟩] := by
  have hopen : (char '(').alternativesOver (rules e) t = [] :=
    alternativesOver_char_eq_nil h
  rw [alternatives_eq, surroundedBy, alternativesOver_map (guarded e),
    alternativesOver_and (guarded e), hopen]
  rfl

/-- Behind a bracket that opens, what a nesting leaves over has to begin with one that closes. -/
theorem alternatives_open (t : Text) :
    alternatives e ('(' :: t) = (alternatives e t).flatMap (behind e) ++ [⟨e, '(' :: t⟩] := by
  rw [alternatives_eq, surroundedBy, alternativesOver_map (guarded e),
    alternativesOver_and (guarded e), alternativesOver_char_cons, if_pos rfl,
    List.flatMap_singleton, alternativesOver_and (guarded e)]
  simp only [List.map_flatMap, List.map_map, List.flatMap_assoc, List.flatMap_map]
  congr 1
  refine List.flatMap_congr fun a _ => ?_
  unfold behind
  cases hrest : a.rest with
  | nil => rfl
  | cons c u =>
      rw [alternativesOver_char_cons]
      split
      · rename_i hc
        subst hc
        rw [List.flatMap_singleton]
        rfl
      · rename_i hc
        split
        · rename_i heq
          exact absurd (List.cons.inj heq).1 hc
        · rfl

theorem rests_of_head_ne (h : t.head? ≠ some '(') : rests e t = [t] := by
  rw [rests, alternatives_of_head_ne e h]
  rfl

theorem rests_open (t : Text) :
    rests e ('(' :: t) = (rests e t).flatMap (restsBehind e) ++ ['(' :: t] := by
  have hbehind : ∀ a, (behind e a).map (·.rest) = restsBehind e a.rest := by
    intro a
    unfold behind restsBehind
    split
    · rw [List.map_map]
      rfl
    · rfl
  rw [rests, alternatives_open, List.map_append, List.map_flatMap, rests, List.flatMap_map]
  simp only [hbehind]
  rfl

/-! ### Balanced beginnings -/

theorem mem_restsBehind {u r : Text} (h : r ∈ restsBehind e u) :
    ∃ t, u = ')' :: t ∧ r ∈ rests e t := by
  unfold restsBehind at h
  split at h
  · exact ⟨_, rfl, h⟩
  · exact absurd h List.not_mem_nil

theorem restsBehind_eq_nil {u : Text} (h : u.head?.any (· == '(')) : restsBehind e u = [] := by
  unfold restsBehind
  split
  · exact absurd h Bool.false_ne_true
  · rfl

theorem mem_rests_iff {r : Text} : r ∈ rests e t ↔ ∃ s, s ++ r = t ∧ Balanced s := by
  constructor
  · intro h
    induction hn : t.length using Nat.strong_induction_on generalizing t r with
    | _ n ih =>
        by_cases hopen : t.head? = some '('
        · obtain ⟨u, rfl⟩ := List.head?_eq_some_iff.mp hopen
          rw [rests_open, List.mem_append, List.mem_flatMap, List.mem_singleton] at h
          rcases h with ⟨v, hv, h⟩ | rfl
          · obtain ⟨w, rfl, hw⟩ := mem_restsBehind e h
            obtain ⟨s, rfl, hs⟩ := ih _ (by simp [← hn]) hv rfl
            obtain ⟨s', rfl, hs'⟩ := ih _ (by simp [← hn]; omega) hw rfl
            exact ⟨_, by simp, .nested hs hs'⟩
          · exact ⟨[], rfl, .empty⟩
        · rw [rests_of_head_ne e hopen, List.mem_singleton] at h
          exact ⟨[], h, .empty⟩
  · rintro ⟨s, rfl, h⟩
    induction h generalizing r with
    | empty =>
        rw [rests, alternatives_eq, List.map_append]
        exact List.mem_append_right _ List.mem_cons_self
    | @nested s s' _ _ ihs ihs' =>
        have happend : '(' :: s ++ ')' :: s' ++ r = '(' :: (s ++ ')' :: (s' ++ r)) := by simp
        rw [happend, rests_open]
        exact List.mem_append_left _ (List.mem_flatMap.mpr ⟨_, ihs, ihs'⟩)

theorem length_le_of_mem_rests {r : Text} (h : r ∈ rests e t) : r.length ≤ t.length := by
  obtain ⟨s, rfl, -⟩ := (mem_rests_iff e).mp h
  exact (List.suffix_append s r).length_le

/-- Only the longest content can be followed by a bracket that closes, as a bracket opens behind
any other. So there is at most one text on which the nesting goes on. -/
theorem flatMap_restsBehind {u : Text} (h : Text.LongestFirst (· == '(') (rests e u)) :
    (rests e u).flatMap (restsBehind e) = [] ∨
      ∃ w, w.length < u.length ∧ (rests e u).flatMap (restsBehind e) = rests e w := by
  cases hrests : rests e u with
  | nil => exact .inl rfl
  | cons v vs =>
      rw [hrests] at h
      have hnone : vs.flatMap (restsBehind e) = [] :=
        List.flatMap_eq_nil_iff.mpr fun v' hv' => restsBehind_eq_nil e (h.begins v' hv')
      rw [List.flatMap_cons, hnone, List.append_nil]
      unfold restsBehind
      split
      · rename_i w
        have hle : (')' :: w).length ≤ u.length :=
          length_le_of_mem_rests e (hrests ▸ List.mem_cons_self)
        exact .inr ⟨w, hle, rfl⟩
      · exact .inl rfl

/-- The rule takes less and less, and leaves a bracket that opens unless it takes the most. -/
theorem longestFirst (t : Text) : Text.LongestFirst (· == '(') (rests e t) := by
  induction hn : t.length using Nat.strong_induction_on generalizing t with
  | _ n ih =>
      by_cases hopen : t.head? = some '('
      · obtain ⟨u, rfl⟩ := List.head?_eq_some_iff.mp hopen
        rw [List.length_cons] at hn
        rw [rests_open]
        rcases flatMap_restsBehind e (ih u.length (by omega) u rfl) with hnone | ⟨w, hw, hone⟩
        · rw [hnone]
          exact .singleton _
        · rw [hone]
          refine (ih w.length (by omega) w rfl).append (List.pairwise_singleton _ _)
            (fun r hr r' hr' => ?_) fun r hr => ?_
          · have hle := length_le_of_mem_rests e hr
            rw [List.mem_singleton.mp hr', List.length_cons]
            omega
          · rw [List.mem_singleton.mp hr]
            rfl
      · rw [rests_of_head_ne e hopen]
        exact .singleton t

/-! ### Nestings of the whole text -/

/-- Of the alternatives only the first can take everything. -/
theorem filter_rest_eq_nil (h : [] ∈ rests e t) :
    ∃ v, (alternatives e t).filter (·.rest = []) = [⟨v, []⟩] := by
  have hgrowing := (longestFirst e t).growing
  unfold rests at h hgrowing
  cases has : alternatives e t with
  | nil => simp [has] at h
  | cons a as =>
      rw [has, List.map_cons] at h hgrowing
      have hlonger : ∀ b ∈ as, b.rest ≠ [] := by
        intro b hb hnil
        have hlt := List.rel_of_pairwise_cons hgrowing (List.mem_map_of_mem hb)
        rw [hnil] at hlt
        exact absurd hlt (Nat.not_lt_zero _)
      have hfirst : a.rest = [] := by
        rcases List.mem_cons.mp h with hnil | hnil
        · exact hnil.symm
        · obtain ⟨b, hb, hnil⟩ := List.mem_map.mp hnil
          exact absurd hnil (hlonger b hb)
      have hnone : as.filter (·.rest = []) = [] := by
        rw [List.filter_eq_nil_iff]
        exact fun b hb hnil => hlonger b hb (of_decide_eq_true hnil)
      refine ⟨a.value, ?_⟩
      rw [List.filter_cons, if_pos (decide_eq_true hfirst), hnone, ← hfirst]

theorem nil_mem_rests_iff : [] ∈ rests e t ↔ Balanced t := by
  rw [mem_rests_iff]
  constructor
  · rintro ⟨s, rfl, hs⟩
    rwa [List.append_nil]
  · exact fun h => ⟨t, List.append_nil t, h⟩

/-- Balanced texts, and no others, are nestings up to their ends, in one way only. -/
theorem alternativesOver_complete_of_balanced (h : Balanced t) :
    ∃ v, complete.alternativesOver (rules e) t = [⟨.pair v .unit, []⟩] := by
  obtain ⟨v, hv⟩ := filter_rest_eq_nil e ((nil_mem_rests_iff e).mpr h)
  refine ⟨v, ?_⟩
  rw [complete, alternativesOver_and_endOfInput (guarded e), ← alternatives, hv]
  rfl

theorem balanced_of_mem_complete {a : Alternative Value}
    (h : a ∈ complete.alternativesOver (rules e) t) : Balanced t := by
  rw [complete, alternativesOver_and_endOfInput (guarded e)] at h
  obtain ⟨b, hb, -⟩ := List.mem_map.mp h
  obtain ⟨hb, hrest⟩ := List.mem_filter.mp hb
  rw [← nil_mem_rests_iff e, ← of_decide_eq_true hrest]
  exact List.mem_map_of_mem hb

/-- **The rule of nested brackets decides which texts are balanced.** On every text the enumeration
ends. The rule offers the balanced beginnings of the text, each once, from the longest to the
shortest. Up to the end of the text there is exactly one alternative if the text is balanced, and
none otherwise. -/
theorem nesting_decides_balance (e : Value) (t : Text) :
    (((rule "nest").under (rules e) t).alternatives ()).ends ∧
      ((complete.under (rules e) t).alternatives ()).ends ∧
      (rests e t).Pairwise (·.length < ·.length) ∧
      (∀ r, r ∈ rests e t ↔ ∃ s, s ++ r = t ∧ Balanced s) ∧
      ((∃ v, ((complete.under (rules e) t).alternatives ()).toList = [⟨.pair v .unit, []⟩]) ↔
        Balanced t) ∧
      (((complete.under (rules e) t).alternatives ()).toList = [] ↔ ¬Balanced t) := by
  change _ ∧ _ ∧ _ ∧ _ ∧
    ((∃ v, complete.alternativesOver (rules e) t = [⟨.pair v .unit, []⟩]) ↔ _) ∧
    (complete.alternativesOver (rules e) t = [] ↔ _)
  refine ⟨ends_under (guarded e) _ t, ends_under (guarded e) _ t, (longestFirst e t).growing,
    fun r => mem_rests_iff e, ⟨?_, alternativesOver_complete_of_balanced e⟩, ?_, ?_⟩
  · rintro ⟨v, hv⟩
    exact balanced_of_mem_complete e (hv ▸ List.mem_singleton_self _)
  · intro hnone h
    obtain ⟨v, hv⟩ := alternativesOver_complete_of_balanced e h
    exact List.cons_ne_nil _ _ (hv.symm.trans hnone)
  · exact fun h => List.eq_nil_iff_forall_not_mem.mpr fun a ha => h (balanced_of_mem_complete e ha)

end Nesting

end Backtrack
