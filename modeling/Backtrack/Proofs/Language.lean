import Backtrack.Proofs.RuleFree

/-!
The languages of grammars. Without rules a grammar denotes a relation between texts and values: it
says which part of the text it takes may stand for which value, and what follows does not matter.
The relation of a form is put together from those of its parts, so the language of a grammar can
be worked out form by form, until nothing of how it is read is left in it.
-/

namespace Backtrack

namespace Text

variable {β γ : Type} {Item : Text → β → Prop} {Gap : Text → Prop}

inductive Repeated (Item : Text → β → Prop) : Text → List β → Prop
  | nil : Repeated Item [] []
  | cons {s t : Text} {v : β} {vs : List β} (h : Item s v) (ht : Repeated Item t vs) :
      Repeated Item (s ++ t) (v :: vs)

inductive Separated (Item : Text → β → Prop) (Gap : Text → Prop) : Text → List β → Prop
  | last {s : Text} {v : β} (h : Item s v) : Separated Item Gap s [v]
  | more {s g t : Text} {v : β} {vs : List β} (h : Item s v) (hg : Gap g)
      (ht : Separated Item Gap t vs) : Separated Item Gap (s ++ g ++ t) (v :: vs)

theorem separated_map_iff (f : β → γ) {s : Text} {ys : List γ} :
    Separated (fun s y => ∃ x, Item s x ∧ f x = y) Gap s ys ↔
      ∃ xs, Separated Item Gap s xs ∧ xs.map f = ys := by
  constructor
  · intro h
    induction h with
    | last h =>
        obtain ⟨x, hx, rfl⟩ := h
        exact ⟨[x], .last hx, rfl⟩
    | more h hg _ ih =>
        obtain ⟨x, hx, rfl⟩ := h
        obtain ⟨xs, hxs, rfl⟩ := ih
        exact ⟨x :: xs, .more hx hg hxs, rfl⟩
  · rintro ⟨xs, h, rfl⟩
    induction h with
    | last h => exact .last ⟨_, h, rfl⟩
    | more h hg _ ih => exact .more ⟨_, h, rfl⟩ hg ih

theorem separated_congr {Item' : Text → β → Prop} {Gap' : Text → Prop}
    (hitem : ∀ s v, Item s v ↔ Item' s v) (hgap : ∀ s, Gap s ↔ Gap' s) {s : Text} {vs : List β} :
    Separated Item Gap s vs ↔ Separated Item' Gap' s vs := by
  obtain rfl : Item = Item' := funext fun s => funext fun v => propext (hitem s v)
  obtain rfl : Gap = Gap' := funext fun s => propext (hgap s)
  exact Iff.rfl

theorem separated_join {write : γ → Text} {value : γ → β} (h : ∀ x, Item (write x) (value x))
    (x : γ) {more : List (Text × γ)} (hgap : ∀ p ∈ more, Gap p.1) :
    Separated Item Gap (write x ++ more.flatMap fun p => p.1 ++ write p.2)
      ((x :: more.map (·.2)).map value) := by
  induction more generalizing x with
  | nil =>
      rw [List.flatMap_nil, List.append_nil]
      exact .last (h x)
  | cons p more ih =>
      rw [List.forall_mem_cons] at hgap
      rw [List.flatMap_cons, List.append_assoc, ← List.append_assoc]
      exact .more (h x) hgap.1 (ih p.2 hgap.2)

end Text

abbrev Language := Text → Value → Prop

namespace Language

inductive Single (accepts : Char → Bool) : Language
  | mk {c : Char} (h : accepts c) : Single accepts [c] (.text [c])

inductive Pair (P Q : Language) : Language
  | mk {s t : Text} {v w : Value} (h : P s v) (h' : Q t w) : Pair P Q (s ++ t) (.pair v w)

inductive Optional (P : Language) : Language
  | present {s : Text} {v : Value} (h : P s v) : Optional P s (.some v)
  | absent : Optional P [] .none

end Language

namespace Grammar

open Backtrack.Language

variable {p q : Grammar} {P Q L : Language}

/-- What the grammar takes of any text belongs to the language with its value, and whatever text
of the language stands in front can be taken. -/
def Denotes (g : Grammar) (L : Language) : Prop :=
  ∀ t v r, Nonempty (Derivation [] g t v r) ↔ ∃ s, s ++ r = t ∧ L s v

theorem Denotes.mem_alternatives_iff {g : Grammar} (h : g.Denotes L) {t : Text} {v : Value}
    {r : Text} : ⟨v, r⟩ ∈ g.alternatives t ↔ ∃ s, s ++ r = t ∧ L s v :=
  Grammar.mem_alternatives_iff.trans (h t v r)

theorem Denotes.congr {g : Grammar} (h : g.Denotes P) (hPQ : ∀ s v, P s v ↔ Q s v) :
    g.Denotes Q := by
  intro t v r
  simp only [← hPQ]
  exact h t v r

theorem denotes_satisfy (accepts : Char → Bool) :
    (satisfy accepts).Denotes (Single accepts) := by
  intro t v r
  constructor
  · rintro ⟨d⟩
    cases d with
    | satisfy h => exact ⟨[_], rfl, .mk h⟩
  · rintro ⟨s, rfl, ⟨h⟩⟩
    exact ⟨.satisfy h⟩

theorem Denotes.and (hp : p.Denotes P) (hq : q.Denotes Q) : (and p q).Denotes (Pair P Q) := by
  intro t v r
  constructor
  · rintro ⟨d⟩
    cases d with
    | and first next =>
        obtain ⟨s, rfl, hs⟩ := (hp _ _ _).mp ⟨first⟩
        obtain ⟨u, rfl, hu⟩ := (hq _ _ _).mp ⟨next⟩
        exact ⟨s ++ u, List.append_assoc s u r, .mk hs hu⟩
  · rintro ⟨_, rfl, ⟨hs, hu⟩⟩
    rw [List.append_assoc]
    obtain ⟨first⟩ := (hp _ _ _).mpr ⟨_, rfl, hs⟩
    obtain ⟨next⟩ := (hq _ _ _).mpr ⟨_, rfl, hu⟩
    exact ⟨.and first next⟩

theorem Denotes.or (hp : p.Denotes P) (hq : q.Denotes Q) :
    (or p q).Denotes fun s v => P s v ∨ Q s v := by
  intro t v r
  constructor
  · rintro ⟨d⟩
    cases d with
    | orFirst d =>
        obtain ⟨s, hs, h⟩ := (hp _ _ _).mp ⟨d⟩
        exact ⟨s, hs, .inl h⟩
    | orSecond d =>
        obtain ⟨s, hs, h⟩ := (hq _ _ _).mp ⟨d⟩
        exact ⟨s, hs, .inr h⟩
  · rintro ⟨s, hs, h | h⟩
    · obtain ⟨d⟩ := (hp _ _ _).mpr ⟨s, hs, h⟩
      exact ⟨.orFirst d⟩
    · obtain ⟨d⟩ := (hq _ _ _).mpr ⟨s, hs, h⟩
      exact ⟨.orSecond d⟩

theorem Denotes.map (hp : p.Denotes P) (f : Value → Value) :
    (map p f).Denotes fun s w => ∃ v, P s v ∧ f v = w := by
  intro t w r
  constructor
  · rintro ⟨d⟩
    cases d with
    | map d =>
        obtain ⟨s, hs, h⟩ := (hp _ _ _).mp ⟨d⟩
        exact ⟨s, hs, _, h, rfl⟩
  · rintro ⟨s, hs, v, h, rfl⟩
    obtain ⟨d⟩ := (hp _ _ _).mpr ⟨s, hs, h⟩
    exact ⟨.map d⟩

theorem Denotes.filterMap (hp : p.Denotes P) (read : Value → Option Value) :
    (filterMap p read).Denotes fun s w => ∃ v, P s v ∧ read v = some w := by
  intro t w r
  constructor
  · rintro ⟨d⟩
    cases d with
    | @bind _ _ _ u _ v _ first next =>
        obtain ⟨s, hs, h⟩ := (hp _ _ _).mp ⟨first⟩
        dsimp only at next
        cases hread : read v with
        | none =>
            rw [hread] at next
            cases next
        | some w' =>
            rw [hread] at next
            cases next with
            | succeed => exact ⟨s, hs, v, h, hread⟩
  · rintro ⟨s, hs, v, h, hread⟩
    obtain ⟨first⟩ := (hp _ _ _).mpr ⟨s, hs, h⟩
    refine ⟨.bind first ?_⟩
    rw [hread]
    exact .succeed w r

theorem Denotes.optional (hp : p.Denotes P) : (optional p).Denotes (Optional P) := by
  intro t v r
  constructor
  · rintro ⟨d⟩
    cases d with
    | present d =>
        obtain ⟨s, hs, h⟩ := (hp _ _ _).mp ⟨d⟩
        exact ⟨s, hs, .present h⟩
    | absent => exact ⟨[], rfl, .absent⟩
  · rintro ⟨s, hs, h | _⟩
    · obtain ⟨d⟩ := (hp _ _ _).mpr ⟨s, hs, h⟩
      exact ⟨.present d⟩
    · obtain rfl : r = t := hs
      exact ⟨.absent r⟩

/-! ### Repetitions -/

theorem Denotes.ne_nil (hp : p.Denotes P) (hc : p.Consumes) {s : Text} {v : Value} (h : P s v) :
    s ≠ [] := by
  rintro rfl
  have hmem : ⟨v, []⟩ ∈ p.alternatives [] := hp.mem_alternatives_iff.mpr ⟨[], rfl, h⟩
  exact Nat.lt_irrefl 0 (hc.length_rest_lt hmem)

theorem Denotes.iterations_iff (hp : p.Denotes P) (hc : p.Consumes) {t r : Text}
    {vs : List Value} :
    Nonempty (Iterations [] p t vs r) ↔ ∃ s, s ++ r = t ∧ Text.Repeated P s vs := by
  constructor
  · rintro ⟨run⟩
    induction vs generalizing t with
    | nil =>
        cases run with
        | done => exact ⟨[], rfl, .nil⟩
    | cons v vs ih =>
        cases run with
        | step first next _ =>
            obtain ⟨s, rfl, hs⟩ := (hp _ _ _).mp ⟨first⟩
            obtain ⟨u, rfl, hu⟩ := ih next
            exact ⟨s ++ u, List.append_assoc s u r, .cons hs hu⟩
  · rintro ⟨s, rfl, h⟩
    induction h with
    | nil => exact ⟨.done r⟩
    | @cons s u v vs hs _ ih =>
        rw [List.append_assoc]
        obtain ⟨first⟩ := (hp _ _ _).mpr ⟨s, rfl, hs⟩
        obtain ⟨next⟩ := ih
        refine ⟨.step first next fun _ => ?_⟩
        have hpos := Nat.pos_of_ne_zero (mt Text.byteLength_eq_zero.mp (hp.ne_nil hc hs))
        rw [Text.byteLength_append s]
        omega

theorem admits_atLeast {n m : ℕ} : (Bounds.atLeast n).Admits m ↔ n ≤ m :=
  and_iff_left fun k hk => absurd hk (Option.not_mem_none k)

theorem Denotes.repeated (hp : p.Denotes P) (hc : p.Consumes) (b : Bounds) :
    (repeated p b).Denotes fun s v =>
      ∃ vs, Text.Repeated P s vs ∧ b.Admits vs.length ∧ .list vs = v := by
  intro t v r
  constructor
  · rintro ⟨d⟩
    cases d with
    | repeated run hb =>
        obtain ⟨s, hs, h⟩ := (hp.iterations_iff hc).mp ⟨run⟩
        exact ⟨s, hs, _, h, hb, rfl⟩
  · rintro ⟨s, hs, vs, h, hb, rfl⟩
    obtain ⟨run⟩ := (hp.iterations_iff hc).mpr ⟨s, hs, h⟩
    exact ⟨.repeated run hb⟩

/-- Items with a gap behind each of them, and one more item. -/
theorem separated_of_repeated {s t : Text} {pairs : List Value} {w : Value}
    (h : Text.Repeated (Pair P Q) s pairs) (hw : P t w) :
    Text.Separated P (fun g => ∃ v, Q g v) (s ++ t) (pairs.map Value.first ++ [w]) := by
  induction h with
  | nil => exact .last hw
  | cons hpair _ ih =>
      obtain ⟨hitem, hgap⟩ := hpair
      rw [List.append_assoc]
      exact .more hitem ⟨_, hgap⟩ ih

theorem exists_repeated_of_separated {s : Text} {vs : List Value}
    (h : Text.Separated P (fun g => ∃ v, Q g v) s vs) :
    ∃ s' pairs t w, s' ++ t = s ∧ Text.Repeated (Pair P Q) s' pairs ∧ P t w ∧
      pairs.map Value.first ++ [w] = vs := by
  induction h with
  | @last t w hw => exact ⟨[], [], t, w, rfl, .nil, hw, rfl⟩
  | @more s g _ v _ hitem hgap _ ih =>
      obtain ⟨s', pairs, t, w, rfl, hpairs, hw, rfl⟩ := ih
      obtain ⟨v', hgap⟩ := hgap
      exact ⟨s ++ g ++ s', .pair v v' :: pairs, t, w, List.append_assoc _ s' t,
        .cons (.mk hitem hgap) hpairs, hw, rfl⟩

theorem Denotes.separatedBy (hp : p.Denotes P) (hq : q.Denotes Q) (hc : q.Consumes) :
    (separatedBy p q).Denotes fun s v =>
      ∃ vs, Text.Separated P (fun g => ∃ w, Q g w) s vs ∧ .list vs = v := by
  refine ((((hp.and hq).repeated (.andSecond hc) (.atLeast 0)).and hp).map separatedItems).congr
    fun s v => ⟨?_, ?_⟩
  · rintro ⟨_, ⟨⟨pairs, hpairs, -, rfl⟩, hw⟩, rfl⟩
    exact ⟨_, separated_of_repeated hpairs hw, rfl⟩
  · rintro ⟨vs, h, rfl⟩
    obtain ⟨s', pairs, t, w, rfl, hpairs, hw, rfl⟩ := exists_repeated_of_separated h
    exact ⟨_, .mk ⟨pairs, hpairs, admits_atLeast.mpr (Nat.zero_le _), rfl⟩ hw, rfl⟩

/-! ### Runs of characters -/

def characters (s : Text) : Value := .list (s.map fun c => .text [c])

@[simp] theorem toText_characters (s : Text) : (characters s).toText = s := by
  rw [characters, Value.toText]
  induction s with
  | nil => rfl
  | cons c s ih =>
      rw [List.map_cons, Value.toText.itemsText, ih]
      rfl

theorem repeated_single_iff {accepts : Char → Bool} {s : Text} {vs : List Value} :
    Text.Repeated (Single accepts) s vs ↔
      (∀ c ∈ s, accepts c) ∧ vs = s.map fun c => .text [c] := by
  constructor
  · intro h
    induction h with
    | nil => exact ⟨fun c hc => absurd hc List.not_mem_nil, rfl⟩
    | cons h _ ih =>
        obtain ⟨hc⟩ := h
        obtain ⟨hall, rfl⟩ := ih
        exact ⟨List.forall_mem_cons.mpr ⟨hc, hall⟩, rfl⟩
  · rintro ⟨hall, rfl⟩
    induction s with
    | nil => exact .nil
    | cons c s ih =>
        rw [List.forall_mem_cons] at hall
        exact .cons (.mk hall.1) (ih hall.2)

theorem Denotes.run {accepts : Char → Bool} (hp : p.Denotes (Single accepts)) (hc : p.Consumes)
    (b : Bounds) :
    (Grammar.repeated p b).Denotes fun s v =>
      (∀ c ∈ s, accepts c) ∧ b.Admits s.length ∧ characters s = v := by
  refine (hp.repeated hc b).congr fun s v => ?_
  simp only [repeated_single_iff]
  constructor
  · rintro ⟨_, ⟨hall, rfl⟩, hb, rfl⟩
    rw [List.length_map] at hb
    exact ⟨hall, hb, rfl⟩
  · rintro ⟨hall, hb, rfl⟩
    exact ⟨_, ⟨hall, rfl⟩, by rwa [List.length_map], rfl⟩

theorem Denotes.many1 {accepts : Char → Bool} (hp : p.Denotes (Single accepts))
    (hc : p.Consumes) :
    (Grammar.many1 p).Denotes fun s v => (s ≠ [] ∧ ∀ c ∈ s, accepts c) ∧ characters s = v := by
  refine (hp.run hc (.atLeast 1)).congr fun s v => ?_
  rw [admits_atLeast, Nat.one_le_iff_ne_zero, Ne, List.length_eq_zero_iff]
  tauto

end Grammar

end Backtrack
