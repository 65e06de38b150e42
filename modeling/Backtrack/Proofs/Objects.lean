import Backtrack.Json.Basic
import Mathlib.Data.Char
import Mathlib.Data.List.Induction
import Mathlib.Data.List.Lex
import Mathlib.Data.List.Sort

/-!
What an object holds that is made of bindings: its fields stand in the order of their keys, which
are exactly the bound ones, each with the value of its last binding. This determines the fields.
-/

namespace Backtrack.Json

variable {k k' : Text} {v v' : Json} {fields bindings : List (Text × Json)}

def Ordered (fields : List (Text × Json)) : Prop := fields.Pairwise fun a b => a.1 < b.1

def LastBinding (bindings : List (Text × Json)) (k : Text) (v : Json) : Prop :=
  ∃ before after, bindings = before ++ (k, v) :: after ∧ ∀ b ∈ after, b.1 ≠ k

theorem Ordered.ne_of_mem {b : Text × Json} (h : Ordered ((k, v) :: fields)) (hb : b ∈ fields) :
    b.1 ≠ k :=
  (ne_of_lt (List.rel_of_pairwise_cons h hb)).symm

theorem mem_cons_iff (h : ∀ b ∈ fields, b.1 ≠ k) :
    (k', v') ∈ (k, v) :: fields ↔ k' = k ∧ v' = v ∨ k' ≠ k ∧ (k', v') ∈ fields := by
  rw [List.mem_cons, Prod.mk.injEq]
  exact or_congr_right ⟨fun hmem => ⟨h _ hmem, hmem⟩, And.right⟩

theorem mem_insertField_iff (h : Ordered fields) :
    (k', v') ∈ insertField k v fields ↔ k' = k ∧ v' = v ∨ k' ≠ k ∧ (k', v') ∈ fields := by
  induction fields with
  | nil => simp [insertField]
  | cons field fields ih =>
      obtain ⟨l, w⟩ := field
      have hothers : ∀ b ∈ fields, b.1 ≠ l := fun b hb => h.ne_of_mem hb
      rw [insertField]
      split
      · rename_i heq
        obtain rfl : k = l := heq
        rw [mem_cons_iff hothers, List.mem_cons, Prod.mk.injEq]
        grind
      · rename_i hne
        split
        · rename_i hlt
          refine mem_cons_iff (List.forall_mem_cons.mpr ⟨Ne.symm hne, fun b hb => ?_⟩)
          exact ne_of_gt (lt_trans hlt (List.rel_of_pairwise_cons h hb))
        · rw [List.mem_cons, List.mem_cons, ih h.of_cons, Prod.mk.injEq]
          grind

theorem Ordered.insertField (h : Ordered fields) : Ordered (insertField k v fields) := by
  induction fields with
  | nil => exact List.pairwise_singleton _ _
  | cons field fields ih =>
      obtain ⟨l, w⟩ := field
      rw [Json.insertField]
      split
      · rename_i heq
        exact List.pairwise_cons.mpr ⟨fun b hb => heq ▸ List.rel_of_pairwise_cons h hb, h.of_cons⟩
      · rename_i hne
        split
        · rename_i hlt
          refine List.pairwise_cons.mpr ⟨List.forall_mem_cons.mpr ⟨hlt, fun b hb => ?_⟩, h⟩
          exact lt_trans hlt (List.rel_of_pairwise_cons h hb)
        · rename_i hnlt
          have hgt : l < k := lt_of_le_of_ne (not_lt.mp hnlt) (Ne.symm hne)
          refine List.pairwise_cons.mpr ⟨fun b hb => ?_, ih h.of_cons⟩
          rcases (mem_insertField_iff h.of_cons).mp hb with ⟨hk, -⟩ | ⟨-, hb⟩
          · exact hk ▸ hgt
          · exact List.rel_of_pairwise_cons h hb

theorem Ordered.ext {fields' : List (Text × Json)} (h : Ordered fields) (h' : Ordered fields')
    (hmem : ∀ b, b ∈ fields ↔ b ∈ fields') : fields = fields' := by
  have hirrefl : Std.Irrefl fun a b : Text × Json => a.1 < b.1 := ⟨fun a => lt_irrefl a.1⟩
  have hantisymm : Std.Antisymm fun a b : Text × Json => a.1 < b.1 :=
    ⟨fun a b hab hba => absurd (lt_trans hab hba) (lt_irrefl a.1)⟩
  exact h.eq_of_mem_iff h' hmem

/-! ### All bindings -/

theorem not_lastBinding_nil : ¬LastBinding [] k v := by
  rintro ⟨before, after, heq, -⟩
  exact List.cons_ne_nil _ _ (List.append_eq_nil_iff.mp heq.symm).2

theorem exists_lastBinding_iff : (∃ v, LastBinding bindings k v) ↔ k ∈ bindings.map Prod.fst := by
  constructor
  · rintro ⟨v, before, after, rfl, -⟩
    simp
  · intro h
    induction bindings with
    | nil => exact absurd h List.not_mem_nil
    | cons binding bindings ih =>
        by_cases hlater : k ∈ bindings.map Prod.fst
        · obtain ⟨v, before, after, rfl, hafter⟩ := ih hlater
          exact ⟨v, binding :: before, after, rfl, hafter⟩
        · obtain rfl : k = binding.1 := (List.mem_cons.mp h).resolve_right hlater
          refine ⟨binding.2, [], bindings, rfl, fun b hb heq => hlater ?_⟩
          exact heq ▸ List.mem_map_of_mem hb

theorem lastBinding_append_singleton :
    LastBinding (bindings ++ [(k', v')]) k v ↔
      k = k' ∧ v = v' ∨ k ≠ k' ∧ LastBinding bindings k v := by
  constructor
  · rintro ⟨before, after, heq, hafter⟩
    rcases List.eq_nil_or_concat' after with rfl | ⟨after, b, rfl⟩
    · obtain ⟨-, hlast⟩ := List.append_inj' heq rfl
      cases hlast
      exact .inl ⟨rfl, rfl⟩
    · rw [← List.cons_append, ← List.append_assoc] at heq
      obtain ⟨rfl, hlast⟩ := List.append_inj' heq rfl
      obtain ⟨hbefore, hb⟩ := List.forall_mem_append.mp hafter
      cases hlast
      exact .inr ⟨(hb _ List.mem_cons_self).symm, before, after, rfl, hbefore⟩
  · rintro (⟨rfl, rfl⟩ | ⟨hne, before, after, rfl, hafter⟩)
    · exact ⟨bindings, [], rfl, fun b hb => absurd hb List.not_mem_nil⟩
    · refine ⟨before, after ++ [(k', v')], by simp, fun b hb => ?_⟩
      rcases List.mem_append.mp hb with hb | hb
      · exact hafter b hb
      · rw [List.mem_singleton.mp hb]
        exact Ne.symm hne

/-- The fields that are made of some bindings, in the order of their keys. -/
theorem ordered_and_mem_iff (bindings : List (Text × Json)) :
    Ordered (bindings.foldl (fun fs (k, v) => insertField k v fs) []) ∧
      ∀ k v, (k, v) ∈ bindings.foldl (fun fs (k, v) => insertField k v fs) [] ↔
        LastBinding bindings k v := by
  induction bindings using List.reverseRecOn with
  | nil => exact ⟨.nil, fun k v => iff_of_false List.not_mem_nil not_lastBinding_nil⟩
  | append_singleton bindings binding ih =>
      obtain ⟨k', v'⟩ := binding
      obtain ⟨hordered, hmem⟩ := ih
      rw [List.foldl_append]
      refine ⟨hordered.insertField, fun k v => ?_⟩
      rw [lastBinding_append_singleton, ← hmem k v]
      exact mem_insertField_iff hordered

/-- The object of some bindings has exactly their keys, once each and in order, with the value of
the last binding. -/
theorem sorted_eq_iff {j : Json} :
    sorted bindings = j ↔
      ∃ fields, j = object fields ∧ Ordered fields ∧
        (∀ k, k ∈ fields.map Prod.fst ↔ k ∈ bindings.map Prod.fst) ∧
        ∀ k v, (k, v) ∈ fields ↔ LastBinding bindings k v := by
  obtain ⟨hordered, hmem⟩ := ordered_and_mem_iff bindings
  constructor
  · rintro rfl
    refine ⟨_, rfl, hordered, fun k => ?_, hmem⟩
    calc
      _ ↔ ∃ v, (k, v) ∈ bindings.foldl (fun fs (k, v) => insertField k v fs) [] := by simp
      _ ↔ ∃ v, LastBinding bindings k v := exists_congr (hmem k)
      _ ↔ k ∈ bindings.map Prod.fst := exists_lastBinding_iff
  · rintro ⟨fields, rfl, hordered', -, hmem'⟩
    refine congrArg object (hordered.ext hordered' fun b => ?_)
    exact (hmem b.1 b.2).trans (hmem' b.1 b.2).symm

end Backtrack.Json
