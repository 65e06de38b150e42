import Backtrack.Proofs.Suffix
import Mathlib.Data.List.Nodup
import Mathlib.Data.List.ProdSigma

/-!
Derivations: the ways in which a grammar can read the front of a text, defined without any order
of trying. A derivation is data, so two of them may give the same value and leave over the same
rest. The alternatives of a grammar are its derivations, each exactly once.
-/

namespace Backtrack

mutual

/-- How a grammar over `rules` reads the front of a text, with the value that this gives and the
rest that it leaves over. -/
inductive Derivation (rules : Rules) : Grammar → Text → Value → Text → Type
  | any (c : Char) (r : Text) : Derivation rules .any (c :: r) (.text [c]) r
  | satisfy {accepts : Char → Bool} {c : Char} {r : Text} (h : accepts c) :
      Derivation rules (.satisfy accepts) (c :: r) (.text [c]) r
  | literal {s t r : Text} (h : s ++ r = t) : Derivation rules (.literal s) t (.text s) r
  | succeed (v : Value) (t : Text) : Derivation rules (.succeed v) t v t
  | endOfInput : Derivation rules .endOfInput [] .unit []
  | bind {p : Grammar} {f : Value → Grammar} {t u r : Text} {v w : Value}
      (first : Derivation rules p t v u) (next : Derivation rules (f v) u w r) :
      Derivation rules (.bind p f) t w r
  | and {p q : Grammar} {t u r : Text} {v w : Value}
      (first : Derivation rules p t v u) (next : Derivation rules q u w r) :
      Derivation rules (.and p q) t (.pair v w) r
  | orFirst {p q : Grammar} {t r : Text} {v : Value} (d : Derivation rules p t v r) :
      Derivation rules (.or p q) t v r
  | orSecond {p q : Grammar} {t r : Text} {v : Value} (d : Derivation rules q t v r) :
      Derivation rules (.or p q) t v r
  | choose {ps : List Grammar} {t r : Text} {v : Value} (i : Fin ps.length)
      (d : Derivation rules ps[i] t v r) : Derivation rules (.choice ps) t v r
  | sequenceNil (t : Text) : Derivation rules (.sequence []) t (.list []) t
  | sequenceCons {p : Grammar} {ps : List Grammar} {t u r : Text} {v : Value} {vs : List Value}
      (first : Derivation rules p t v u) (next : Derivation rules (.sequence ps) u (.list vs) r) :
      Derivation rules (.sequence (p :: ps)) t (.list (v :: vs)) r
  | map {p : Grammar} {f : Value → Value} {t r : Text} {v : Value}
      (d : Derivation rules p t v r) : Derivation rules (.map p f) t (f v) r
  | repeated {p : Grammar} {b : Bounds} {t r : Text} {vs : List Value}
      (run : Iterations rules p t vs r) (h : b.Admits vs.length) :
      Derivation rules (.repeated p b) t (.list vs) r
  | present {p : Grammar} {t r : Text} {v : Value} (d : Derivation rules p t v r) :
      Derivation rules (.optional p) t (.some v) r
  | absent {p : Grammar} (t : Text) : Derivation rules (.optional p) t .none t
  | delayed {p : Unit → Grammar} {t r : Text} {v : Value} (d : Derivation rules (p ()) t v r) :
      Derivation rules (.delayed p) t v r
  | rule {name : String} {t r : Text} {v : Value} (d : Derivation rules (rules.get name) t v r) :
      Derivation rules (.rule name) t v r
  | probe {label : String} {p : Grammar} {t r : Text} {v : Value} (d : Derivation rules p t v r) :
      Derivation rules (.probe label p) t v r

/-- Derivations of one grammar in a row, with the list of their values. All but the last take at
least one byte. -/
inductive Iterations (rules : Rules) : Grammar → Text → List Value → Text → Type
  | done {p : Grammar} (t : Text) : Iterations rules p t [] t
  | step {p : Grammar} {t u r : Text} {v : Value} {vs : List Value}
      (first : Derivation rules p t v u) (next : Iterations rules p u vs r)
      (h : vs ≠ [] → u.byteLength < t.byteLength) : Iterations rules p t (v :: vs) r

end

namespace Listing

variable {α β X Y : Type}

/-- The listing goes through all `x` once each and shows `f x`, as far as it is known. -/
def Enumerates (l : Listing α) (f : X → Alternative α) : Prop :=
  ∃ xs : List X, xs.Nodup ∧ l ≤ ⟨xs.map f, true⟩ ∧ (l.complete → ∀ x, x ∈ xs)

variable {l m : Listing α} {f : X → Alternative α} {g : Y → Alternative α}

theorem enumerates_bot : (⊥ : Listing α).Enumerates f :=
  ⟨[], List.nodup_nil, bot_le, fun h => absurd h Bool.false_ne_true⟩

theorem enumerates_empty [IsEmpty X] : (empty : Listing α).Enumerates f :=
  ⟨[], List.nodup_nil, le_refl _, fun _ x => isEmptyElim x⟩

theorem enumerates_single {v : α} {r : Text} (x : X) (hx : f x = ⟨v, r⟩) (h : ∀ y, y = x) :
    (single v r).Enumerates f :=
  ⟨[x], List.nodup_singleton x, by rw [List.map_singleton, hx]; exact le_refl _,
    fun _ y => List.mem_singleton.mpr (h y)⟩

/-- What is gone through may be renamed one to one. -/
theorem Enumerates.congr (h : l.Enumerates f) {e : X → Y} (he : Function.Bijective e)
    (hg : ∀ x, g (e x) = f x) : l.Enumerates g := by
  obtain ⟨xs, hnodup, hle, hall⟩ := h
  refine ⟨xs.map e, hnodup.map he.1, ?_, fun hc y => ?_⟩
  · rw [List.map_map, show g ∘ e = f from funext hg]
    exact hle
  · obtain ⟨x, rfl⟩ := he.2 y
    exact List.mem_map_of_mem (hall hc x)

theorem Enumerates.map (h : l.Enumerates f) (k : α → β) :
    (l.map k).Enumerates fun x => (f x).map k := by
  obtain ⟨xs, hnodup, hle, hall⟩ := h
  refine ⟨xs, hnodup, ?_, hall⟩
  have hmap := map_mono k hle
  simp only [Listing.map, List.map_map] at hmap ⊢
  exact hmap

theorem Enumerates.append (hl : l.Enumerates f) (hm : m.Enumerates g) :
    (l.append m).Enumerates (Sum.elim f g) := by
  obtain ⟨xs, hxs, hxle, hxall⟩ := hl
  obtain ⟨ys, hys, hyle, hyall⟩ := hm
  refine ⟨xs.map .inl ++ ys.map .inr, ?_, ?_, ?_⟩
  · refine (hxs.map Sum.inl_injective).append (hys.map Sum.inr_injective) ?_
    rw [List.disjoint_left]
    intro z hx hy
    obtain ⟨x, -, rfl⟩ := List.mem_map.mp hx
    obtain ⟨y, -, heq⟩ := List.mem_map.mp hy
    cases heq
  · rw [List.map_append, List.map_map, List.map_map]
    exact append_mono hxle hyle
  · intro hc
    rw [complete_append] at hc
    rintro (x | y)
    · exact List.mem_append_left _ (List.mem_map_of_mem (hxall hc.1 x))
    · exact List.mem_append_right _ (List.mem_map_of_mem (hyall hc.2 y))

theorem flatMap_of_complete (as : List (Alternative α))
    (bs : Alternative α → List (Alternative β)) :
    (⟨as, true⟩ : Listing α).flatMap (fun a => ⟨bs a, true⟩) = ⟨as.flatMap bs, true⟩ := by
  induction as with
  | nil => rfl
  | cons a as ih =>
      show Listing.append ⟨bs a, true⟩ (flatMap ⟨as, true⟩ fun a => ⟨bs a, true⟩) = _
      rw [ih]
      rfl

/-- A concatenation goes through pairs, of which the first part chooses the branch. -/
theorem Enumerates.flatMap {Z : Alternative α → Type} {k : Alternative α → Listing β}
    {h : ∀ a, Z a → Alternative β} (hl : l.Enumerates f)
    (hk : ∀ a ∈ l.items, (k a).Enumerates (h a)) :
    (l.flatMap k).Enumerates fun x : Σ x : X, Z (f x) => h (f x.1) x.2 := by
  obtain ⟨xs, hxs, hxle, hxall⟩ := hl
  -- Nothing is known of the branches outside of the list, so these get an empty enumeration.
  have hbranch : ∀ a, ∃ zs : List (Z a), zs.Nodup ∧
      (a ∈ l.items → k a ≤ ⟨zs.map (h a), true⟩ ∧ ((k a).complete → ∀ z, z ∈ zs)) := by
    intro a
    by_cases ha : a ∈ l.items
    · obtain ⟨zs, hzs, hzle, hzall⟩ := hk a ha
      exact ⟨zs, hzs, fun _ => ⟨hzle, hzall⟩⟩
    · exact ⟨[], List.nodup_nil, fun h => absurd h ha⟩
  choose zs hzs hbranch using hbranch
  refine ⟨xs.sigma fun x => zs (f x), hxs.sigma fun x => hzs (f x), ?_, ?_⟩
  · have hle := flatMap_mono hxle fun a ha => (hbranch a ha).1
    rw [flatMap_of_complete, List.flatMap_map] at hle
    simp only [List.sigma, List.map_flatMap, List.map_map]
    exact hle
  · intro hc
    rw [complete_flatMap] at hc
    rintro ⟨x, z⟩
    have hx := hxall hc.1 x
    have hmem : f x ∈ l.items := by
      rw [eq_of_le hxle hc.1]
      exact List.mem_map_of_mem hx
    exact List.mem_sigma.mpr ⟨hx, (hbranch _ hmem).2 (hc.2 _ hmem) z⟩

end Listing

structure Reading (rules : Rules) (g : Grammar) (t : Text) where
  value : Value
  rest : Text
  derivation : Derivation rules g t value rest

namespace Reading

variable {rules : Rules} {p q : Grammar} {t : Text}

def alternative {g : Grammar} (x : Reading rules g t) : Alternative Value := ⟨x.value, x.rest⟩

/-- The readings with one value and one rest are the derivations of these. -/
def fiber {g : Grammar} (v : Value) (r : Text) :
    { x : Reading rules g t // x.alternative = ⟨v, r⟩ } ≃ Derivation rules g t v r where
  toFun
    | ⟨⟨_, _, d⟩, rfl⟩ => d
  invFun d := ⟨⟨v, r, d⟩, rfl⟩
  left_inv := by
    rintro ⟨⟨v', r', d⟩, h⟩
    cases h
    rfl
  right_inv _ := rfl

/-- Continuing the readings of `p` gives the readings of a sequence. -/
theorem bind_bijective (f : Value → Grammar) :
    Function.Bijective fun x : Σ x : Reading rules p t, Reading rules (f x.value) x.rest =>
      (⟨x.2.value, x.2.rest, .bind x.1.derivation x.2.derivation⟩ :
        Reading rules (.bind p f) t) := by
  constructor
  · rintro ⟨⟨v, u, d⟩, ⟨w, r, e⟩⟩ ⟨⟨v', u', d'⟩, ⟨w', r', e'⟩⟩ heq
    cases heq
    rfl
  · rintro ⟨w, r, d⟩
    cases d with
    | bind d e => exact ⟨⟨⟨_, _, d⟩, ⟨_, _, e⟩⟩, rfl⟩

theorem and_bijective :
    Function.Bijective fun x : Σ x : Reading rules p t, Reading rules q x.rest =>
      (⟨.pair x.1.value x.2.value, x.2.rest, .and x.1.derivation x.2.derivation⟩ :
        Reading rules (.and p q) t) := by
  constructor
  · rintro ⟨⟨v, u, d⟩, ⟨w, r, e⟩⟩ ⟨⟨v', u', d'⟩, ⟨w', r', e'⟩⟩ heq
    cases heq
    rfl
  · rintro ⟨w, r, d⟩
    cases d with
    | and d e => exact ⟨⟨⟨_, _, d⟩, ⟨_, _, e⟩⟩, rfl⟩

theorem or_bijective :
    Function.Bijective (Sum.elim
      (fun x : Reading rules p t => ⟨x.value, x.rest, .orFirst x.derivation⟩)
      (fun x : Reading rules q t => ⟨x.value, x.rest, .orSecond x.derivation⟩) :
        _ → Reading rules (.or p q) t) := by
  constructor
  · rintro (⟨v, u, d⟩ | ⟨v, u, d⟩) (⟨v', u', d'⟩ | ⟨v', u', d'⟩) heq <;> cases heq <;> rfl
  · rintro ⟨w, r, d⟩
    cases d with
    | orFirst d => exact ⟨.inl ⟨_, _, d⟩, rfl⟩
    | orSecond d => exact ⟨.inr ⟨_, _, d⟩, rfl⟩

def unmap {f : Value → Value} : Reading rules (.map p f) t → Reading rules p t
  | ⟨_, r, .map d⟩ => ⟨_, r, d⟩

theorem map_bijective (f : Value → Value) :
    Function.Bijective fun x : Reading rules p t =>
      (⟨f x.value, x.rest, .map x.derivation⟩ : Reading rules (.map p f) t) := by
  constructor
  · intro x y heq
    exact congrArg unmap heq
  · rintro ⟨w, r, d⟩
    cases d with
    | map d => exact ⟨⟨_, _, d⟩, rfl⟩

theorem optional_bijective :
    Function.Bijective (Sum.elim
      (fun x : Reading rules p t => ⟨.some x.value, x.rest, .present x.derivation⟩)
      (fun _ : Unit => ⟨.none, t, .absent t⟩) : _ → Reading rules (.optional p) t) := by
  constructor
  · rintro (⟨v, u, d⟩ | ⟨⟩) (⟨v', u', d'⟩ | ⟨⟩) heq <;> cases heq <;> rfl
  · rintro ⟨w, r, d⟩
    cases d with
    | present d => exact ⟨.inl ⟨_, _, d⟩, rfl⟩
    | absent => exact ⟨.inr (), rfl⟩

theorem delayed_bijective (p : Unit → Grammar) :
    Function.Bijective fun x : Reading rules (p ()) t =>
      (⟨x.value, x.rest, .delayed x.derivation⟩ : Reading rules (.delayed p) t) := by
  constructor
  · rintro ⟨v, u, d⟩ ⟨v', u', d'⟩ heq
    cases heq
    rfl
  · rintro ⟨w, r, d⟩
    cases d with
    | delayed d => exact ⟨⟨_, _, d⟩, rfl⟩

theorem rule_bijective (name : String) :
    Function.Bijective fun x : Reading rules (rules.get name) t =>
      (⟨x.value, x.rest, .rule x.derivation⟩ : Reading rules (.rule name) t) := by
  constructor
  · rintro ⟨v, u, d⟩ ⟨v', u', d'⟩ heq
    cases heq
    rfl
  · rintro ⟨w, r, d⟩
    cases d with
    | rule d => exact ⟨⟨_, _, d⟩, rfl⟩

theorem probe_bijective (label : String) :
    Function.Bijective fun x : Reading rules p t =>
      (⟨x.value, x.rest, .probe x.derivation⟩ : Reading rules (.probe label p) t) := by
  constructor
  · rintro ⟨v, u, d⟩ ⟨v', u', d'⟩ heq
    cases heq
    rfl
  · rintro ⟨w, r, d⟩
    cases d with
    | probe d => exact ⟨⟨_, _, d⟩, rfl⟩

end Reading

structure Branch (rules : Rules) (ps : List Grammar) (t : Text) where
  position : Fin ps.length
  reading : Reading rules ps[position] t

namespace Branch

variable {rules : Rules} {p : Grammar} {ps : List Grammar} {t : Text}

theorem cons_bijective :
    Function.Bijective (Sum.elim (fun x : Reading rules p t => ⟨0, x⟩)
      (fun x : Branch rules ps t => ⟨x.position.succ, x.reading⟩) :
        _ → Branch rules (p :: ps) t) := by
  constructor
  · rintro (x | ⟨i, x⟩) (y | ⟨j, y⟩) heq
    · cases heq
      rfl
    · exact absurd (congrArg Branch.position heq).symm (Fin.succ_ne_zero j)
    · exact absurd (congrArg Branch.position heq) (Fin.succ_ne_zero i)
    · obtain rfl : i = j := Fin.succ_inj.mp (congrArg Branch.position heq)
      cases heq
      rfl
  · rintro ⟨i, x⟩
    induction i using Fin.cases with
    | zero => exact ⟨.inl x, rfl⟩
    | succ i => exact ⟨.inr ⟨i, x⟩, rfl⟩

theorem choose_bijective :
    Function.Bijective fun x : Branch rules ps t =>
      (⟨x.reading.value, x.reading.rest, .choose x.position x.reading.derivation⟩ :
        Reading rules (.choice ps) t) := by
  constructor
  · rintro ⟨i, ⟨v, u, d⟩⟩ ⟨j, ⟨v', u', d'⟩⟩ heq
    cases heq
    rfl
  · rintro ⟨w, r, d⟩
    cases d with
    | choose i d => exact ⟨⟨i, ⟨_, _, d⟩⟩, rfl⟩

end Branch

structure Row (rules : Rules) (ps : List Grammar) (t : Text) where
  values : List Value
  rest : Text
  derivation : Derivation rules (.sequence ps) t (.list values) rest

namespace Row

variable {rules : Rules} {p : Grammar} {ps : List Grammar} {t : Text}

theorem cons_bijective :
    Function.Bijective fun x : Σ x : Reading rules p t, Row rules ps x.rest =>
      (⟨x.1.value :: x.2.values, x.2.rest, .sequenceCons x.1.derivation x.2.derivation⟩ :
        Row rules (p :: ps) t) := by
  constructor
  · rintro ⟨⟨v, u, d⟩, ⟨vs, r, e⟩⟩ ⟨⟨v', u', d'⟩, ⟨vs', r', e'⟩⟩ heq
    cases heq
    rfl
  · rintro ⟨vs, r, d⟩
    cases d with
    | sequenceCons d e => exact ⟨⟨⟨_, _, d⟩, ⟨_, _, e⟩⟩, rfl⟩

theorem reading_bijective :
    Function.Bijective fun x : Row rules ps t =>
      (⟨.list x.values, x.rest, x.derivation⟩ : Reading rules (.sequence ps) t) := by
  constructor
  · rintro ⟨vs, r, d⟩ ⟨vs', r', d'⟩ heq
    cases heq
    rfl
  · rintro ⟨w, r, d⟩
    cases d with
    | sequenceNil => exact ⟨⟨[], _, .sequenceNil _⟩, rfl⟩
    | sequenceCons d e => exact ⟨⟨_, _, .sequenceCons d e⟩, rfl⟩

end Row

/-- Iterations that continue `count` earlier ones to an admitted number. -/
structure Run (rules : Rules) (p : Grammar) (b : Bounds) (count : ℕ) (t : Text) where
  values : List Value
  rest : Text
  iterations : Iterations rules p t values rest
  admitted : b.Admits (count + values.length)

namespace Run

variable {rules : Rules} {p : Grammar} {b : Bounds} {count : ℕ} {t : Text}

/-- The end of a run behind a first iteration. Behind an iteration that takes nothing there is
no other. -/
structure Tail (rules : Rules) (p : Grammar) (b : Bounds) (count : ℕ) (t u : Text) where
  values : List Value
  rest : Text
  iterations : Iterations rules p u values rest
  progress : values ≠ [] → u.byteLength < t.byteLength
  admitted : b.Admits (count + 1 + values.length)

def alternative (x : Run rules p b count t) : Alternative (List Value) := ⟨x.values, x.rest⟩

/-- A run stops at once, or makes one iteration more and goes on. -/
theorem step_bijective :
    Function.Bijective (Sum.elim
      (fun x : Σ x : Reading rules p t, Tail rules p b count t x.rest =>
        ⟨x.1.value :: x.2.values, x.2.rest,
          .step x.1.derivation x.2.iterations x.2.progress,
          by simpa [Nat.add_right_comm, Nat.add_assoc] using x.2.admitted⟩)
      (fun h : PLift (b.Admits count) => ⟨[], t, .done t, h.down⟩) :
        _ → Run rules p b count t) := by
  constructor
  · rintro (⟨⟨v, u, d⟩, ⟨vs, r, its, hp, ha⟩⟩ | h) (⟨⟨v', u', d'⟩, ⟨vs', r', its', hp', ha'⟩⟩ | h')
      heq
    · cases heq
      rfl
    · cases heq
    · cases heq
    · exact congrArg Sum.inr (Subsingleton.elim h h')
  · rintro ⟨vs, r, its, ha⟩
    cases its with
    | done => exact ⟨.inr ⟨ha⟩, rfl⟩
    | step d its hp =>
        exact ⟨.inl ⟨⟨_, _, d⟩, ⟨_, _, its, hp,
          by simpa [Nat.add_right_comm, Nat.add_assoc] using ha⟩⟩, rfl⟩

theorem reading_bijective :
    Function.Bijective fun x : Run rules p b 0 t =>
      (⟨.list x.values, x.rest, .repeated x.iterations (by simpa using x.admitted)⟩ :
        Reading rules (.repeated p b) t) := by
  constructor
  · rintro ⟨vs, r, its, ha⟩ ⟨vs', r', its', ha'⟩ heq
    cases heq
    rfl
  · rintro ⟨w, r, d⟩
    cases d with
    | repeated its h => exact ⟨⟨_, _, its, by simpa using h⟩, rfl⟩

/-- Behind an iteration that takes something, a run goes on as one of its own. -/
theorem tail_bijective {u : Text} (h : u.byteLength < t.byteLength) :
    Function.Bijective fun x : Run rules p b (count + 1) u =>
      (⟨x.values, x.rest, x.iterations, fun _ => h, x.admitted⟩ : Tail rules p b count t u) := by
  constructor
  · rintro ⟨vs, r, its, ha⟩ ⟨vs', r', its', ha'⟩ heq
    cases heq
    rfl
  · rintro ⟨vs, r, its, hp, ha⟩
    exact ⟨⟨vs, r, its, ha⟩, rfl⟩

theorem Tail.eq_done {u : Text} (h : ¬u.byteLength < t.byteLength)
    (x : Tail rules p b count t u) :
    ∃ ha : b.Admits (count + 1), x = ⟨[], u, .done u, fun hne => absurd rfl hne, ha⟩ := by
  obtain ⟨vs, r, its, hp, ha⟩ := x
  cases its with
  | done => exact ⟨ha, rfl⟩
  | step d its hstep => exact absurd (hp (List.cons_ne_nil _ _)) h

theorem eq_done (h : b.max.any (· ≤ count)) (x : Run rules p b count t) :
    ∃ ha : b.Admits count, x = ⟨[], t, .done t, ha⟩ := by
  obtain ⟨vs, r, its, hx⟩ := x
  cases its with
  | done => exact ⟨hx, rfl⟩
  | step d its hstep =>
      obtain ⟨m, hm, hle⟩ := (Option.any_eq_true _ _).mp h
      have hmax := hx.2 m hm
      simp only [decide_eq_true_eq, List.length_cons] at hle hmax
      omega

end Run

/-! ### The eager lists go through the derivations -/

section Repetition

variable {rules : Rules} {p : Grammar} {l : Text → Listing Value} {b : Bounds} {count : ℕ}
  {t : Text}

theorem enumerates_stop (hcount : ∀ m ∈ b.max, count ≤ m) :
    (if b.min ≤ count then Listing.single ([] : List Value) t else .empty).Enumerates
      fun _ : PLift (b.Admits count) => ⟨[], t⟩ := by
  split
  · rename_i hmin
    exact Listing.enumerates_single ⟨hmin, hcount⟩ rfl fun _ => Subsingleton.elim _ _
  · rename_i hmin
    have : IsEmpty (PLift (b.Admits count)) := ⟨fun h => hmin h.down.1⟩
    exact Listing.enumerates_empty

/-- What follows an iteration with the alternative `a`, when the longer runs are known. -/
theorem enumerates_tail {a : Alternative Value} {longer : Listing (List Value)}
    (hend : a.rest <:+ t) (hcount : ∀ m ∈ b.max, count + 1 ≤ m)
    (hlonger : a.rest.length < t.length →
      longer.Enumerates fun x : Run rules p b (count + 1) a.rest => x.alternative) :
    (if a.rest.length < t.length then longer.map (a.value :: ·)
      else if b.min ≤ count + 1 then .single [a.value] a.rest else .empty).Enumerates
      fun x : Run.Tail rules p b count t a.rest => ⟨a.value :: x.values, x.rest⟩ := by
  split
  · rename_i hlt
    have hbytes := (Text.byteLength_lt_iff_of_suffix hend).mpr hlt
    exact ((hlonger hlt).map _).congr (Run.tail_bijective hbytes) fun _ => rfl
  · rename_i hlt
    have hbytes := mt (Text.byteLength_lt_iff_of_suffix hend).mp hlt
    split
    · rename_i hmin
      refine Listing.enumerates_single
        ⟨[], a.rest, .done a.rest, fun hne => absurd rfl hne, hmin, hcount⟩ rfl fun x => ?_
      obtain ⟨ha, rfl⟩ := Run.Tail.eq_done hbytes x
      rfl
    · rename_i hmin
      have : IsEmpty (Run.Tail rules p b count t a.rest) :=
        ⟨fun x => hmin (Run.Tail.eq_done hbytes x).1.1⟩
      exact Listing.enumerates_empty

theorem enumerates_repeatFrom
    (hl : ∀ u, (l u).Enumerates fun x : Reading rules p u => x.alternative)
    (hend : ∀ u, (l u).LeavesEndOf u) (hcount : ∀ m ∈ b.max, count ≤ m) :
    (Listing.repeatFrom l b count t).Enumerates
      fun x : Run rules p b count t => x.alternative := by
  -- On the length of the text. That the count has not passed the upper bound is kept because the
  -- bound is looked at before every iteration.
  induction hn : t.length using Nat.strong_induction_on generalizing count t with
  | _ n ih =>
      unfold Listing.repeatFrom
      dsimp only
      split
      · rename_i hreached
        refine (enumerates_stop hcount).congr (e := fun h => ⟨[], t, .done t, h.down⟩) ?_
          fun _ => rfl
        refine ⟨fun h h' _ => Subsingleton.elim h h', fun x => ?_⟩
        obtain ⟨ha, rfl⟩ := Run.eq_done hreached x
        exact ⟨⟨ha⟩, rfl⟩
      · rename_i hreached
        have hcount' : ∀ m ∈ b.max, count + 1 ≤ m := by
          intro m hm
          by_contra hlt
          exact hreached ((Option.any_eq_true _ _).mpr ⟨m, hm, decide_eq_true (by omega)⟩)
        have hlonger := (hl t).flatMap fun a ha =>
          enumerates_tail (hend t a ha) hcount' fun hlt => ih _ (hn ▸ hlt) hcount' rfl
        exact (hlonger.append (enumerates_stop hcount)).congr Run.step_bijective
          (by rintro (x | x) <;> rfl)

end Repetition

namespace Grammar

variable {rules : Rules} {lists : String → Text → Listing Value}

theorem enumerates_choice (ps : List Grammar) {t : Text}
    (h : ∀ p ∈ ps, (p.eager lists t).Enumerates fun x : Reading rules p t => x.alternative) :
    (eager.eagerChoice lists ps t).Enumerates
      fun x : Branch rules ps t => x.reading.alternative := by
  induction ps with
  | nil =>
      have : IsEmpty (Branch rules [] t) := ⟨fun x => x.position.elim0⟩
      exact Listing.enumerates_empty
  | cons p ps ih =>
      have hps := ih fun q hq => h q (List.mem_cons_of_mem p hq)
      exact ((h p List.mem_cons_self).append hps).congr Branch.cons_bijective
        (by rintro (x | x) <;> rfl)

theorem enumerates_sequence (ps : List Grammar) (t : Text)
    (h : ∀ p ∈ ps, ∀ t,
      (p.eager lists t).Enumerates fun x : Reading rules p t => x.alternative) :
    (eager.eagerSequence lists ps t).Enumerates
      fun x : Row rules ps t => ⟨x.values, x.rest⟩ := by
  induction ps generalizing t with
  | nil =>
      refine Listing.enumerates_single ⟨[], t, .sequenceNil t⟩ rfl ?_
      rintro ⟨vs, r, ⟨⟩⟩
      rfl
  | cons p ps ih =>
      have hps := fun t => ih t fun q hq => h q (List.mem_cons_of_mem p hq)
      exact ((h p List.mem_cons_self t).flatMap fun a _ => (hps a.rest).map _).congr
        Row.cons_bijective fun _ => rfl

theorem enumerates_any (t : Text) :
    (any.eager lists t).Enumerates fun x : Reading rules .any t => x.alternative := by
  cases t with
  | nil =>
      have : IsEmpty (Reading rules .any []) := ⟨fun ⟨_, _, d⟩ => nomatch d⟩
      exact Listing.enumerates_empty
  | cons c t =>
      refine Listing.enumerates_single ⟨_, _, .any c t⟩ rfl ?_
      rintro ⟨v, r, ⟨⟩⟩
      rfl

theorem enumerates_satisfy (accepts : Char → Bool) (t : Text) :
    ((satisfy accepts).eager lists t).Enumerates
      fun x : Reading rules (.satisfy accepts) t => x.alternative := by
  cases t with
  | nil =>
      have : IsEmpty (Reading rules (.satisfy accepts) []) := ⟨fun ⟨_, _, d⟩ => nomatch d⟩
      exact Listing.enumerates_empty
  | cons c t =>
      rw [eager]
      split
      · rename_i hc
        refine Listing.enumerates_single ⟨_, _, .satisfy hc⟩ rfl ?_
        rintro ⟨v, r, ⟨⟩⟩
        rfl
      · rename_i hc
        have : IsEmpty (Reading rules (.satisfy accepts) (c :: t)) := by
          constructor
          rintro ⟨v, r, d⟩
          cases d with
          | satisfy h => exact hc h
        exact Listing.enumerates_empty

theorem enumerates_literal (s t : Text) :
    ((literal s).eager lists t).Enumerates
      fun x : Reading rules (.literal s) t => x.alternative := by
  rw [eager]
  split
  · rename_i hs
    obtain ⟨r, rfl⟩ := hs
    rw [List.drop_left]
    refine Listing.enumerates_single ⟨_, _, .literal rfl⟩ rfl ?_
    rintro ⟨v, r', d⟩
    cases d with
    | literal hr =>
        -- The rest is determined, because `s` can be taken off in one way only.
        obtain rfl := List.append_cancel_left hr
        rfl
  · rename_i hs
    have : IsEmpty (Reading rules (.literal s) t) := by
      constructor
      rintro ⟨v, r, d⟩
      cases d with
      | literal hr => exact hs ⟨r, hr⟩
    exact Listing.enumerates_empty

theorem enumerates_endOfInput (t : Text) :
    (endOfInput.eager lists t).Enumerates
      fun x : Reading rules .endOfInput t => x.alternative := by
  rw [eager]
  split
  · rename_i ht
    obtain rfl := ht
    refine Listing.enumerates_single ⟨_, _, .endOfInput⟩ rfl ?_
    rintro ⟨w, r, ⟨⟩⟩
    rfl
  · rename_i ht
    have : IsEmpty (Reading rules .endOfInput t) := by
      constructor
      rintro ⟨v, r, d⟩
      cases d with
      | endOfInput => exact ht rfl
    exact Listing.enumerates_empty

/-- The list of a grammar goes through its derivations if the lists of the rules do. -/
theorem enumerates_eager
    (h : ∀ name t,
      (lists name t).Enumerates fun x : Reading rules (.rule name) t => x.alternative)
    (hend : ∀ name t, (lists name t).LeavesEndOf t) (g : Grammar) (t : Text) :
    (g.eager lists t).Enumerates fun x : Reading rules g t => x.alternative := by
  induction g generalizing t with
  | any => exact enumerates_any t
  | satisfy accepts => exact enumerates_satisfy accepts t
  | literal s => exact enumerates_literal s t
  | succeed v =>
      refine Listing.enumerates_single ⟨_, _, .succeed v t⟩ rfl ?_
      rintro ⟨w, r, ⟨⟩⟩
      rfl
  | fail =>
      have : IsEmpty (Reading rules .fail t) := ⟨fun ⟨_, _, d⟩ => nomatch d⟩
      exact Listing.enumerates_empty
  | endOfInput => exact enumerates_endOfInput t
  | bind p f ihp ihf =>
      exact ((ihp t).flatMap fun a _ => ihf a.value a.rest).congr (Reading.bind_bijective f)
        fun _ => rfl
  | and p q ihp ihq =>
      exact ((ihp t).flatMap fun a _ => (ihq a.rest).map _).congr Reading.and_bijective
        fun _ => rfl
  | or p q ihp ihq =>
      exact ((ihp t).append (ihq t)).congr Reading.or_bijective (by rintro (x | x) <;> rfl)
  | choice ps ih =>
      exact (enumerates_choice ps fun p hp => ih p hp t).congr Branch.choose_bijective fun _ => rfl
  | sequence ps ih =>
      exact ((enumerates_sequence ps t ih).map _).congr Row.reading_bijective fun _ => rfl
  | map p f ih => exact ((ih t).map f).congr (Reading.map_bijective f) fun _ => rfl
  | repeated p b ih =>
      have hrun : (Listing.repeatFrom (p.eager lists) b 0 t).Enumerates
          fun x : Run rules p b 0 t => x.alternative :=
        enumerates_repeatFrom ih (leavesEndOf_eager hend p) fun _ _ => Nat.zero_le _
      exact (hrun.map _).congr Run.reading_bijective fun _ => rfl
  | optional p ih =>
      have hnone : (Listing.single Value.none t).Enumerates
          fun _ : Unit => (⟨.none, t⟩ : Alternative Value) :=
        Listing.enumerates_single () rfl fun _ => rfl
      exact (((ih t).map _).append hnone).congr Reading.optional_bijective
        (by rintro (x | x) <;> rfl)
  | delayed p ih => exact (ih t).congr (Reading.delayed_bijective p) fun _ => rfl
  | rule name => exact h name t
  | probe label p ih => exact (ih t).congr (Reading.probe_bijective label) fun _ => rfl

end Grammar

theorem Rules.enumerates_eager (rules : Rules) (budget : ℕ) (name : String) (t : Text) :
    (rules.eager budget name t).Enumerates
      fun x : Reading rules (.rule name) t => x.alternative := by
  induction budget generalizing name t with
  | zero => exact Listing.enumerates_bot
  | succ budget ih =>
      exact (Grammar.enumerates_eager ih (rules.leavesEndOf_eager budget) _ t).congr
        (Reading.rule_bijective name) fun _ => rfl

namespace Grammar

variable (g : Grammar) (rules : Rules) (t : Text)

theorem enumerates_eagerWithin (budget : ℕ) :
    (g.eagerWithin rules t budget).Enumerates fun x : Reading rules g t => x.alternative :=
  enumerates_eager (rules.enumerates_eager budget) (rules.leavesEndOf_eager budget) g t

end Grammar

namespace Listing

variable {α X : Type} {l : Listing α} {f : X → Alternative α}

theorem Enumerates.exists_eq (h : l.Enumerates f) {a : Alternative α} (ha : a ∈ l.items) :
    ∃ x, f x = a := by
  obtain ⟨xs, -, hle, -⟩ := h
  obtain ⟨x, -, hx⟩ := List.mem_map.mp (hle.1.subset ha)
  exact ⟨x, hx⟩

/-- The positions at which a complete listing shows `a` are as many as what it goes through
there. -/
theorem Enumerates.positions (h : l.Enumerates f) (hc : l.complete) (a : Alternative α) :
    Nonempty ({ i : ℕ // l.items[i]? = some a } ≃ { x : X // f x = a }) := by
  obtain ⟨xs, hnodup, hle, hall⟩ := h
  have hitems : l.items = xs.map f := congrArg items (eq_of_le hle hc)
  have hget : ∀ i : { i : ℕ // l.items[i]? = some a }, ∃ x : { x : X // f x = a },
      xs[i.1]? = some x.1 := by
    rintro ⟨i, hi⟩
    rw [hitems, List.getElem?_map, Option.map_eq_some_iff] at hi
    obtain ⟨x, hx, hfx⟩ := hi
    exact ⟨⟨x, hfx⟩, hx⟩
  choose e he using hget
  -- The enumeration has no duplicates, so a position is determined by what stands there.
  refine ⟨Equiv.ofBijective e ⟨?_, ?_⟩⟩
  · rintro ⟨i, hi⟩ ⟨j, hj⟩ heq
    have hij : xs[i]? = xs[j]? := by rw [he ⟨i, hi⟩, he ⟨j, hj⟩, heq]
    have hlt : i < xs.length := (List.getElem?_eq_some_iff.mp (he ⟨i, hi⟩)).1
    exact Subtype.ext ((List.getElem?_inj hlt hnodup).mp hij)
  · rintro ⟨x, hx⟩
    obtain ⟨i, hi⟩ := List.mem_iff_getElem?.mp (hall hc x)
    have hpos : l.items[i]? = some a := by rw [hitems, List.getElem?_map, hi, ← hx]; rfl
    refine ⟨⟨i, hpos⟩, Subtype.ext ?_⟩
    exact Option.some.inj ((he ⟨i, hpos⟩).symm.trans hi)

end Listing

namespace Grammar

/-- Whatever is pulled has a derivation, and once the end is reached every value with its rest has
been pulled as often as it has derivations. -/
theorem pulled_alternatives_are_derivations (g : Grammar) (rules : Rules) (t : Text)
    (budget k : ℕ) :
    (∀ a ∈ ((g.within rules budget t).pull k).alternatives,
      Nonempty (Derivation rules g t a.value a.rest)) ∧
    (((g.within rules budget t).pull k).finished → ∀ v r,
      Nonempty ({ i : ℕ // ((g.within rules budget t).pull k).alternatives[i]? = some ⟨v, r⟩ } ≃
        Derivation rules g t v r)) := by
  have henum := g.enumerates_eagerWithin rules t budget
  constructor
  · intro a ha
    rw [alternatives_pull_within] at ha
    obtain ⟨x, rfl⟩ := henum.exists_eq (List.mem_of_mem_take ha)
    exact ⟨x.derivation⟩
  · intro hfinished v r
    rw [finished_pull_within, Bool.and_eq_true, decide_eq_true_eq] at hfinished
    rw [alternatives_pull_within, List.take_of_length_le hfinished.2.le]
    exact (henum.positions hfinished.1 _).map fun e => e.trans (Reading.fiber v r)

/-- Two ways to split one character among two runs are two derivations of one result. -/
theorem pulled_alternatives_are_derivations_twice :
    let rules : Rules := [("as", .or (.and (.literal ['a']) (.rule "as")) (.succeed .unit))]
    let g : Grammar := .map (.and (.rule "as") (.rule "as")) fun _ => .unit
    ((g.within rules 3 ['a']).pull 4).alternatives =
        [⟨.unit, []⟩, ⟨.unit, []⟩, ⟨.unit, ['a']⟩] ∧
      ((g.within rules 3 ['a']).pull 4).finished ∧
      Nonempty ({ i : ℕ // ((g.within rules 3 ['a']).pull 4).alternatives[i]? =
        some ⟨.unit, []⟩ } ≃ Derivation rules g ['a'] .unit []) := by
  intro rules g
  have hfinished : ((g.within rules 3 ['a']).pull 4).finished := rfl
  exact ⟨rfl, hfinished,
    (pulled_alternatives_are_derivations g rules ['a'] 3 4).2 hfinished .unit []⟩

end Grammar

end Backtrack
