import Backtrack.Bounds
import Mathlib.Data.Option.Basic
import Mathlib.Order.Basic

/-!
Ranges of counts. The bounds that are read off a range admit the counts that lie inside it, and a
range with no count inside is refused. There is one exception: no count lies past the greatest one,
but a range that starts past it and does not end before is accepted, and its bounds admit the
greatest count.
-/

namespace Backtrack

namespace Endpoint

def greatest : UInt64 := UInt64.ofNat Bounds.maxCount

theorem toNat_greatest : greatest.toNat = Bounds.maxCount := rfl

theorem toNat_le_maxCount (n : UInt64) : n.toNat ≤ Bounds.maxCount :=
  Nat.le_sub_one_of_lt n.toNat_lt

theorem eq_greatest_iff {n : UInt64} : n = greatest ↔ n.toNat = Bounds.maxCount :=
  ⟨fun h => h ▸ rfl, fun h => UInt64.toNat_inj.mp (h.trans toNat_greatest.symm)⟩

def StartsBy : Endpoint → UInt64 → Prop
  | unbounded, _ => True
  | included m, n => m ≤ n
  | excluded m, n => m < n

def EndsAfter : Endpoint → UInt64 → Prop
  | unbounded, _ => True
  | included m, n => n ≤ m
  | excluded m, n => n < m

def Inside (first last : Endpoint) (n : UInt64) : Prop := first.StartsBy n ∧ last.EndsAfter n

/-- The range starts past the greatest count and ends nowhere. -/
def PastGreatest (first last : Endpoint) : Prop :=
  first = excluded greatest ∧ (last = unbounded ∨ last = included greatest)

end Endpoint

namespace Bounds

open Endpoint

variable {first last : Endpoint}

theorem lower_le_maxCount (first : Endpoint) : lower first ≤ maxCount := by
  cases first with
  | unbounded => exact Nat.zero_le _
  | included m => exact toNat_le_maxCount m
  | excluded m => exact Nat.min_le_right _ _

theorem upper_le_maxCount {limit : ℕ} (h : limit ∈ upper last) : limit ≤ maxCount := by
  cases last with
  | unbounded => cases h
  | included m =>
      have hm := toNat_le_maxCount m
      simp only [upper] at h
      split at h
      · cases h
      · obtain rfl := Option.some.inj h
        omega
  | excluded m =>
      obtain rfl := Option.some.inj h
      exact toNat_le_maxCount m

theorem upper_eq_none_iff : upper last = none ↔ last = unbounded ∨ last = included greatest := by
  cases last with
  | unbounded => simp [upper]
  | included m => simp [upper, eq_greatest_iff]
  | excluded m => simp [upper]

/-- The least count is read faithfully unless it would lie past the greatest one. -/
theorem lower_le_iff (h : first ≠ excluded greatest) (n : UInt64) :
    lower first ≤ n.toNat ↔ first.StartsBy n := by
  cases first with
  | unbounded => simp [lower, StartsBy]
  | included m => exact UInt64.le_iff_toNat_le.symm
  | excluded m =>
      have hm : m.toNat + 1 ≤ maxCount := by
        have hle := toNat_le_maxCount m
        have hne : m.toNat ≠ maxCount := fun heq => h (congrArg excluded (eq_greatest_iff.mpr heq))
        omega
      have hleast : lower (excluded m) = m.toNat + 1 := Nat.min_eq_left hm
      rw [StartsBy, UInt64.lt_iff_toNat_lt, hleast, Nat.succ_le_iff]

theorem not_startsBy_excluded_greatest (n : UInt64) : ¬(excluded greatest).StartsBy n := by
  intro h
  have hlt : maxCount < n.toNat := UInt64.lt_iff_toNat_lt.mp h
  exact absurd (toNat_le_maxCount n) (Nat.not_le_of_lt hlt)

/-- The end of a range is read faithfully. -/
theorem lt_upper_iff (n : UInt64) :
    (∀ limit ∈ upper last, n.toNat < limit) ↔ last.EndsAfter n := by
  cases last with
  | unbounded => simp [upper, EndsAfter]
  | included m =>
      have hn := toNat_le_maxCount n
      rw [EndsAfter, UInt64.le_iff_toNat_le]
      by_cases hm : m.toNat = maxCount
      · simp [upper, hm, hn]
      · have hupper : upper (included m) = some (m.toNat + 1) := if_neg hm
        rw [hupper]
        constructor
        · exact fun h => Nat.le_of_lt_succ (h _ rfl)
        · rintro h limit ⟨⟩
          exact Nat.lt_succ_of_le h
  | excluded m => simp [upper, EndsAfter, UInt64.lt_iff_toNat_lt]

theorem ofRange_eq_ok_iff {b : Bounds} :
    ofRange first last = .ok b ↔
      (∀ limit ∈ upper last, lower first < limit) ∧
        b = ⟨lower first, (upper last).map (· - 1)⟩ := by
  unfold ofRange
  cases h : upper last with
  | none => simp [eq_comm]
  | some limit =>
      by_cases hle : limit ≤ lower first
      · simp [hle]
      · simp [hle, Nat.lt_of_not_le hle, eq_comm]

theorem le_of_ofRange_eq_error {least limit : ℕ}
    (h : ofRange first last = .error (.invalidRepetition least limit)) : limit ≤ least := by
  unfold ofRange at h
  split at h
  · cases h
  · split at h
    · rename_i hle
      cases h
      exact hle
    · cases h

/-- What the bounds of an accepted range admit, by its least count and its end. -/
theorem admits_iff {b : Bounds} (h : ofRange first last = .ok b) (n : ℕ) :
    b.Admits n ↔ lower first ≤ n ∧ ∀ limit ∈ upper last, n < limit := by
  obtain ⟨hlimit, rfl⟩ := ofRange_eq_ok_iff.mp h
  cases hupper : upper last with
  | none => simp [Admits]
  | some limit =>
      have hpos : 0 < limit := Nat.zero_lt_of_lt (hlimit limit hupper)
      simp [Admits, Nat.le_sub_one_iff_lt hpos]

/-- Only a range without an end before the greatest count may start past this count. -/
theorem pastGreatest_of_ofRange {b : Bounds} (h : ofRange (excluded greatest) last = .ok b) :
    PastGreatest (excluded greatest) last := by
  refine ⟨rfl, upper_eq_none_iff.mp ?_⟩
  obtain ⟨hlimit, -⟩ := ofRange_eq_ok_iff.mp h
  cases hupper : upper last with
  | none => rfl
  | some limit =>
      have hlt : maxCount < limit := hlimit limit hupper
      exact absurd (upper_le_maxCount hupper) (Nat.not_le_of_lt hlt)

theorem not_inside_of_pastGreatest (h : PastGreatest first last) (n : UInt64) :
    ¬Inside first last n := by
  rintro ⟨hstart, -⟩
  rw [h.1] at hstart
  exact not_startsBy_excluded_greatest n hstart

theorem ofRange_of_pastGreatest (h : PastGreatest first last) :
    ofRange first last = .ok ⟨maxCount, none⟩ := by
  rw [ofRange, upper_eq_none_iff.mpr h.2, h.1]
  rfl

theorem inside_iff {b : Bounds} (h : ofRange first last = .ok b)
    (hpast : ¬PastGreatest first last) (n : UInt64) :
    Inside first last n ↔ b.Admits n.toNat := by
  have hfirst : first ≠ excluded greatest := by
    rintro rfl
    exact hpast (pastGreatest_of_ofRange h)
  rw [admits_iff h, lower_le_iff hfirst, lt_upper_iff, Inside]

theorem exists_ofRange_of_inside {n : UInt64} (h : Inside first last n) :
    ∃ b, ofRange first last = .ok b := by
  have hfirst : first ≠ excluded greatest := by
    rintro rfl
    exact not_startsBy_excluded_greatest n h.1
  refine ⟨_, ofRange_eq_ok_iff.mpr ⟨fun limit hlimit => ?_, rfl⟩⟩
  exact Nat.lt_of_le_of_lt ((lower_le_iff hfirst n).mpr h.1)
    ((lt_upper_iff n).mpr h.2 limit hlimit)

theorem exists_inside {b : Bounds} (h : ofRange first last = .ok b)
    (hpast : ¬PastGreatest first last) : ∃ n, Inside first last n := by
  have hleast : (UInt64.ofNat (lower first)).toNat = lower first :=
    UInt64.toNat_ofNat_of_lt' (Nat.lt_succ_of_le (lower_le_maxCount first))
  refine ⟨UInt64.ofNat (lower first), (inside_iff h hpast _).mpr ?_⟩
  rw [hleast, admits_iff h]
  exact ⟨Nat.le_refl _, (ofRange_eq_ok_iff.mp h).1⟩

/-- **Ranges are read faithfully, with one exception.** A range is accepted if and only if a count
lies inside it, or if it starts past the greatest count and ends nowhere. The bounds of an accepted
range admit exactly the counts inside it, and those of the exceptional ranges admit the greatest
count although nothing is inside. Between the limits that a refusal tells there is no count. The
range from `n` to `n` is accepted for all `n`. -/
theorem ofRange_reads_ranges (first last : Endpoint) :
    ((∃ b, ofRange first last = .ok b) ↔
      (∃ n, Inside first last n) ∨ PastGreatest first last) ∧
    (∀ b, ofRange first last = .ok b →
      ∀ n, Inside first last n ↔ b.Admits n.toNat ∧ ¬PastGreatest first last) ∧
    (PastGreatest first last → ofRange first last = .ok ⟨maxCount, none⟩) ∧
    (∀ least limit, ofRange first last = .error (.invalidRepetition least limit) →
      ∀ count, ¬(least ≤ count ∧ count < limit)) ∧
    ∀ n, ∃ b, ofRange (.included n) (.included n) = .ok b := by
  refine ⟨⟨?_, ?_⟩, fun b h n => ⟨fun hinside => ?_, ?_⟩, ofRange_of_pastGreatest, ?_, ?_⟩
  · rintro ⟨b, h⟩
    by_cases hpast : PastGreatest first last
    · exact .inr hpast
    · exact .inl (exists_inside h hpast)
  · rintro (⟨n, hinside⟩ | hpast)
    · exact exists_ofRange_of_inside hinside
    · exact ⟨_, ofRange_of_pastGreatest hpast⟩
  · have hpast : ¬PastGreatest first last := fun hpast =>
      not_inside_of_pastGreatest hpast n hinside
    exact ⟨(inside_iff h hpast n).mp hinside, hpast⟩
  · rintro ⟨hadmits, hpast⟩
    exact (inside_iff h hpast n).mpr hadmits
  · rintro least limit h count ⟨hle, hlt⟩
    have hlimit := le_of_ofRange_eq_error h
    omega
  · exact fun n => ⟨_, ofRange_included_self n⟩

/-- A range that leaves out its start and is not exceptional. -/
theorem ofRange_reads_ranges_excluded :
    ofRange (.excluded 1) (.included 4) = .ok ⟨2, some 4⟩ ∧
      ∀ n, Inside (.excluded 1) (.included 4) n ↔
        (⟨2, some 4⟩ : Bounds).Admits n.toNat ∧ ¬PastGreatest (.excluded 1) (.included 4) :=
  ⟨rfl, (ofRange_reads_ranges (.excluded 1) (.included 4)).2.1 ⟨2, some 4⟩ rfl⟩

/-- The range of the counts past the greatest one is accepted, although there are none, and its
bounds admit the greatest count. -/
theorem ofRange_past_greatest :
    ofRange (.excluded greatest) .unbounded = .ok ⟨maxCount, none⟩ ∧
      (⟨maxCount, none⟩ : Bounds).Admits greatest.toNat ∧
      ¬∃ n, Inside (.excluded greatest) .unbounded n := by
  refine ⟨rfl, ⟨Nat.le_refl _, fun m hm => nomatch hm⟩, ?_⟩
  rintro ⟨n, hstart, -⟩
  exact not_startsBy_excluded_greatest n hstart

end Bounds

end Backtrack
