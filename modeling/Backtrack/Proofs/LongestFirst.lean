import Backtrack.Proofs.RuleFree

/-!
Grammars whose alternatives take less and less. For a single character or a run of characters this
is plain. It carries over to grammars in a row if what a shorter alternative of the first one
leaves over begins with a character that the second one cannot begin with: then the second one
finds nothing there, or at least takes nothing. So with each grammar goes a class of characters,
with which all rests but the first begin, and a class with which a text has to begin if there is
to be any alternative.
-/

namespace Backtrack

namespace Text

def Apart (cls cls' : Char → Bool) : Prop := ∀ c, cls c → ¬cls' c

theorem apart_none {cls : Char → Bool} : Apart (fun _ => false) cls :=
  fun _ h => absurd h Bool.false_ne_true

/-! ### Rests in the order of their alternatives -/

/-- Each rest is shorter than those behind it, and all but the first begin with a character of the
class. -/
structure LongestFirst (cls : Char → Bool) (rests : List Text) : Prop where
  growing : rests.Pairwise fun r r' => r.length < r'.length
  begins : ∀ r ∈ rests.tail, r.head?.any cls

theorem any_head?_mono {cls cls' : Char → Bool} {t : Text} (hcls : ∀ c, cls c → cls' c)
    (h : t.head?.any cls) : t.head?.any cls' := by
  cases t with
  | nil => exact absurd h Bool.false_ne_true
  | cons c t => exact hcls c h

theorem any_head?_or_left {cls cls' : Char → Bool} {t : Text} :
    t.head?.any cls → t.head?.any fun c => cls c || cls' c :=
  any_head?_mono fun c hc => by rw [hc, Bool.true_or]

theorem any_head?_or_right {cls cls' : Char → Bool} {t : Text} :
    t.head?.any cls' → t.head?.any fun c => cls c || cls' c :=
  any_head?_mono fun c hc => by rw [hc, Bool.or_true]

namespace LongestFirst

variable {cls cls' : Char → Bool} {rests more : List Text} {t : Text}

theorem nil : LongestFirst cls [] := ⟨.nil, fun _ h => absurd h List.not_mem_nil⟩

theorem singleton (t : Text) : LongestFirst cls [t] :=
  ⟨List.pairwise_singleton _ t, fun _ h => absurd h List.not_mem_nil⟩

theorem mono (h : LongestFirst cls rests) (hcls : ∀ c, cls c → cls' c) :
    LongestFirst cls' rests :=
  ⟨h.growing, fun r hr => any_head?_mono hcls (h.begins r hr)⟩

theorem sublist (h : LongestFirst cls rests) (hsub : more.Sublist rests) :
    LongestFirst cls more :=
  ⟨h.growing.sublist hsub, fun r hr => h.begins r (hsub.tail.subset hr)⟩

theorem append (h : LongestFirst cls rests)
    (hmore : more.Pairwise fun r r' => r.length < r'.length)
    (hlt : ∀ r ∈ rests, ∀ r' ∈ more, r.length < r'.length)
    (hbegins : ∀ r ∈ more, r.head?.any cls) : LongestFirst cls (rests ++ more) := by
  refine ⟨List.pairwise_append.mpr ⟨h.growing, hmore, hlt⟩, fun r hr => ?_⟩
  cases rests with
  | nil => exact hbegins r (List.mem_of_mem_tail hr)
  | cons r₀ rests =>
      rcases List.mem_append.mp hr with hr | hr
      · exact h.begins r hr
      · exact hbegins r hr

theorem sublist_singleton (h : LongestFirst cls rests) (ht : ∀ r ∈ rests, r = t) :
    rests.Sublist [t] := by
  cases rests with
  | nil => exact List.nil_sublist _
  | cons r rests =>
      obtain ⟨rfl, hrests⟩ := List.forall_mem_cons.mp ht
      cases rests with
      | nil => exact List.Sublist.refl _
      | cons r' rests =>
          have hlt := List.rel_of_pairwise_cons h.growing List.mem_cons_self
          rw [hrests r' List.mem_cons_self] at hlt
          exact absurd hlt (Nat.lt_irrefl _)

end LongestFirst

theorem ite_sublist {P : Prop} [Decidable P] (t : Text) :
    (if P then [t] else []).Sublist [t] := by
  split
  · exact List.Sublist.refl _
  · exact List.nil_sublist _

theorem flatMap_sublist {f : Text → List Text} {rests : List Text}
    (h : ∀ r ∈ rests, (f r).Sublist [r]) : (rests.flatMap f).Sublist rests := by
  induction rests with
  | nil => exact List.Sublist.refl _
  | cons r rests ih =>
      rw [List.forall_mem_cons] at h
      exact h.1.append (ih h.2)

end Text

namespace Grammar

open Backtrack.Text (Apart LongestFirst)

variable {p q : Grammar} {cls cls' first first' : Char → Bool} {t : Text}

/-! ### The rests of grammars -/

def rests (g : Grammar) (t : Text) : List Text := (g.alternatives t).map (·.rest)

theorem suffix_of_mem_rests {g : Grammar} {r : Text} (h : r ∈ g.rests t) : r <:+ t := by
  obtain ⟨a, ha, rfl⟩ := List.mem_map.mp h
  exact rest_suffix ha

theorem Consumes.length_lt {g : Grammar} (hg : g.Consumes) {r : Text} (h : r ∈ g.rests t) :
    r.length < t.length := by
  obtain ⟨a, ha, rfl⟩ := List.mem_map.mp h
  exact hg.length_rest_lt ha

theorem rests_satisfy_cons (accepts : Char → Bool) (c : Char) (t : Text) :
    (satisfy accepts).rests (c :: t) = if accepts c then [t] else [] := by
  rw [rests, alternatives_satisfy_cons]
  split <;> rfl

theorem rests_map (f : Value → Value) : (map p f).rests t = p.rests t := by
  rw [rests, alternatives_map, List.map_map]
  rfl

theorem rests_and : (and p q).rests t = (p.rests t).flatMap q.rests := by
  rw [rests, alternatives_and, rests, List.map_flatMap, List.flatMap_map]
  simp only [List.map_map]
  rfl

theorem rests_or : (or p q).rests t = p.rests t ++ q.rests t := by
  rw [rests, alternatives_or, List.map_append]
  rfl

theorem rests_optional : (optional p).rests t = p.rests t ++ [t] := by
  rw [rests, alternatives_optional, List.map_append, List.map_map]
  rfl

theorem rests_filterMap_sublist (read : Value → Option Value) :
    ((filterMap p read).rests t).Sublist (p.rests t) := by
  rw [rests, alternatives_filterMap, rests]
  induction p.alternatives t with
  | nil => exact List.Sublist.refl _
  | cons a as ih =>
      rw [List.filterMap_cons]
      cases read a.value with
      | none => exact ih.cons a.rest
      | some w => exact ih.cons_cons a.rest

def runRests (p : Grammar) (b : Bounds) (count : ℕ) (t : Text) : List Text :=
  (p.runs b count t).map (·.rest)

theorem rests_repeated (b : Bounds) : (repeated p b).rests t = p.runRests b 0 t := by
  rw [rests, alternatives_repeated, List.map_map]
  rfl

theorem suffix_of_mem_runRests {b : Bounds} {count : ℕ} {r : Text}
    (h : r ∈ p.runRests b count t) : r <:+ t := by
  obtain ⟨a, ha, rfl⟩ := List.mem_map.mp h
  have hends : ∀ u, (p.eager (fun _ _ => .empty) u).LeavesEndOf u :=
    leavesEndOf_eager (fun _ _ => Listing.leavesEndOf_empty) p
  exact Listing.leavesEndOf_repeatFrom hends b count t a ha

/-- A run of iterations that take something goes on, or it ends. -/
theorem runRests_eq (hp : p.Consumes) (b : Bounds) (count : ℕ) (t : Text) :
    p.runRests b count t =
      if b.max.any (· ≤ count) then (if b.min ≤ count then [t] else [])
      else
        ((p.rests t).flatMap (p.runRests b (count + 1))) ++ if b.min ≤ count then [t] else [] := by
  have hstop : (if b.min ≤ count then [(⟨[], t⟩ : Alternative (List Value))] else []).map
      (·.rest) = if b.min ≤ count then [t] else [] := by
    split <;> rfl
  rw [runRests, runs_eq]
  split
  · exact hstop
  · rw [List.map_append, hstop, List.map_flatMap, rests, List.flatMap_map]
    congr 1
    refine List.flatMap_congr fun a ha => ?_
    rw [if_pos (hp.length_lt (List.mem_map_of_mem ha)), List.map_map]
    rfl

/-! ### The first alternative is the longest -/

/-- On every text the rests of the grammar grow, and all but the first begin with a character of
the class. -/
def LongestFirst (g : Grammar) (cls : Char → Bool) : Prop :=
  ∀ t, Text.LongestFirst cls (g.rests t)

def BeginsIn (g : Grammar) (first : Char → Bool) : Prop :=
  ∀ t, g.rests t ≠ [] → t.head?.any first

/-- There is no alternative on a text that begins with a character of another class. -/
theorem BeginsIn.rests_eq_nil (h : q.BeginsIn first) (hapart : Apart cls first)
    (ht : t.head?.any cls) : q.rests t = [] := by
  by_contra hrests
  have hfirst := h t hrests
  cases t with
  | nil => exact absurd ht Bool.false_ne_true
  | cons c t => exact hapart c ht hfirst

theorem LongestFirst.mono (h : p.LongestFirst cls) (hcls : ∀ c, cls c → cls' c) :
    p.LongestFirst cls' := fun t => (h t).mono hcls

theorem longestFirst_satisfy (accepts cls : Char → Bool) :
    (satisfy accepts).LongestFirst cls := by
  intro t
  cases t with
  | nil => exact .nil
  | cons c t =>
      rw [rests_satisfy_cons]
      split
      · exact .singleton t
      · exact .nil

theorem beginsIn_satisfy (accepts : Char → Bool) : (satisfy accepts).BeginsIn accepts := by
  intro t hrests
  cases t with
  | nil => exact absurd rfl hrests
  | cons c t =>
      rw [rests_satisfy_cons] at hrests
      by_contra hc
      exact hrests (if_neg hc)

theorem LongestFirst.map (h : p.LongestFirst cls) (f : Value → Value) :
    (map p f).LongestFirst cls := fun t => by rw [rests_map]; exact h t

theorem BeginsIn.map (h : p.BeginsIn first) (f : Value → Value) : (map p f).BeginsIn first :=
  fun t => by rw [rests_map]; exact h t

theorem LongestFirst.filterMap (h : p.LongestFirst cls) (read : Value → Option Value) :
    (filterMap p read).LongestFirst cls := fun t => (h t).sublist (rests_filterMap_sublist read)

theorem BeginsIn.filterMap (h : p.BeginsIn first) (read : Value → Option Value) :
    (filterMap p read).BeginsIn first := by
  intro t hrests
  refine h t fun hnil => hrests ?_
  have hsub : ((Grammar.filterMap p read).rests t).Sublist (p.rests t) :=
    rests_filterMap_sublist read
  rw [hnil] at hsub
  exact List.sublist_nil.mp hsub

/-- What follows finds nothing behind a shorter alternative, or takes nothing. -/
theorem LongestFirst.and (hp : p.LongestFirst cls) (hq : q.LongestFirst cls')
    (hstuck : ∀ t, t.head?.any cls → ∀ r ∈ q.rests t, r = t ∧ t.head?.any cls') :
    (and p q).LongestFirst cls' := by
  intro t
  rw [rests_and]
  obtain ⟨hgrowing, hbegins⟩ := hp t
  cases hrests : p.rests t with
  | nil => exact .nil
  | cons r rs =>
      rw [hrests] at hgrowing hbegins
      have hsub : (rs.flatMap q.rests).Sublist rs := by
        refine Text.flatMap_sublist fun r' hr' => (hq r').sublist_singleton fun u hu => ?_
        exact (hstuck r' (hbegins r' hr') u hu).1
      rw [List.flatMap_cons]
      refine (hq r).append (hgrowing.tail.sublist hsub) (fun u hu u' hu' => ?_) fun u hu => ?_
      · exact (suffix_of_mem_rests hu).length_le.trans_lt
          (List.rel_of_pairwise_cons hgrowing (hsub.subset hu'))
      · obtain ⟨r', hr', hu⟩ := List.mem_flatMap.mp hu
        obtain ⟨rfl, hcls⟩ := hstuck r' (hbegins r' hr') u hu
        exact hcls

/-- What follows finds nothing behind a shorter alternative, as it has to begin otherwise. -/
theorem LongestFirst.and_of_beginsIn (hp : p.LongestFirst cls) (hq : q.LongestFirst cls')
    (hfirst : q.BeginsIn first) (hapart : Apart cls first) :
    (Grammar.and p q).LongestFirst cls' := by
  refine hp.and hq fun t ht r hr => ?_
  rw [hfirst.rests_eq_nil hapart ht] at hr
  exact absurd hr List.not_mem_nil

theorem BeginsIn.and (h : p.BeginsIn first) (q : Grammar) : (and p q).BeginsIn first := by
  intro t hrests
  refine h t fun hnil => hrests ?_
  rw [rests_and, hnil]
  rfl

/-- Of two grammars that begin otherwise, at most one has alternatives. -/
theorem LongestFirst.or (hp : p.LongestFirst cls) (hq : q.LongestFirst cls')
    (hfirst : p.BeginsIn first) (hfirst' : q.BeginsIn first') (hapart : Apart first first') :
    (or p q).LongestFirst fun c => cls c || cls' c := by
  intro t
  rw [rests_or]
  by_cases hnil : p.rests t = []
  · rw [hnil]
    exact (hq t).mono fun c hc => by rw [hc, Bool.or_true]
  · rw [hfirst'.rests_eq_nil hapart (hfirst t hnil), List.append_nil]
    exact (hp t).mono fun c hc => by rw [hc, Bool.true_or]

theorem BeginsIn.or (hp : p.BeginsIn first) (hq : q.BeginsIn first') :
    (or p q).BeginsIn fun c => first c || first' c := by
  intro t hrests
  rw [rests_or] at hrests
  by_cases hnil : p.rests t = []
  · rw [hnil] at hrests
    exact Text.any_head?_or_right (hq t hrests)
  · exact Text.any_head?_or_left (hp t hnil)

theorem LongestFirst.optional (h : p.LongestFirst cls) (hp : p.Consumes)
    (hfirst : p.BeginsIn cls) : (optional p).LongestFirst cls := by
  intro t
  rw [rests_optional]
  by_cases hnil : p.rests t = []
  · rw [hnil]
    exact .singleton t
  · refine (h t).append (List.pairwise_singleton _ t) (fun r hr r' hr' => ?_) fun r hr => ?_
    · rw [List.mem_singleton.mp hr']
      exact hp.length_lt hr
    · rw [List.mem_singleton.mp hr]
      exact hfirst t hnil

/-- A run may only end where no other iteration is possible. -/
theorem runRests_sublist_singleton (hp : p.Consumes) (b : Bounds) (count : ℕ)
    (ht : p.rests t = []) : (p.runRests b count t).Sublist [t] := by
  rw [runRests_eq hp, ht]
  split <;> exact Text.ite_sublist t

/-- Runs are offered the longest first if a shorter iteration leaves over what no other iteration
can begin with. -/
theorem LongestFirst.repeated (h : p.LongestFirst cls) (hp : p.Consumes)
    (hfirst : p.BeginsIn first) (hapart : Apart cls first) (b : Bounds) :
    (repeated p b).LongestFirst fun c => cls c || first c := by
  suffices hruns : ∀ count t,
      Text.LongestFirst (fun c => cls c || first c) (p.runRests b count t) from
    fun t => by rw [rests_repeated]; exact hruns 0 t
  intro count t
  induction hn : t.length using Nat.strong_induction_on generalizing count t with
  | _ n ih =>
      obtain ⟨hgrowing, hbegins⟩ := h t
      cases hrests : p.rests t with
      | nil =>
          exact (LongestFirst.singleton t).sublist (runRests_sublist_singleton hp b count hrests)
      | cons r rs =>
          have hlt : ∀ r' ∈ r :: rs, r'.length < t.length :=
            fun r' hr' => hp.length_lt (hrests ▸ hr')
          have ht : t.head?.any first := hfirst t (by simp [hrests])
          rw [hrests] at hgrowing hbegins
          rw [runRests_eq hp, hrests]
          split
          · exact (LongestFirst.singleton t).sublist (Text.ite_sublist t)
          -- The runs behind the first alternative come first. Behind any other, and after all of
          -- these, a run can only end.
          · have hsub : (rs.flatMap (p.runRests b (count + 1)) ++
                if b.min ≤ count then [t] else []).Sublist (rs ++ [t]) := by
              refine .append (Text.flatMap_sublist fun r' hr' => ?_) (Text.ite_sublist t)
              exact runRests_sublist_singleton hp b (count + 1)
                (hfirst.rests_eq_nil hapart (hbegins r' hr'))
            have hmore : (rs ++ [t]).Pairwise fun u u' => u.length < u'.length := by
              refine List.pairwise_append.mpr
                ⟨hgrowing.tail, List.pairwise_singleton _ t, fun u hu u' hu' => ?_⟩
              rw [List.mem_singleton.mp hu']
              exact hlt u (List.mem_cons_of_mem r hu)
            rw [List.flatMap_cons, List.append_assoc]
            refine (ih _ (hn ▸ hlt r List.mem_cons_self) (count + 1) r rfl).append
              (hmore.sublist hsub) (fun u hu u' hu' => ?_) fun u hu => ?_
            · refine (suffix_of_mem_runRests hu).length_le.trans_lt ?_
              rcases List.mem_append.mp (hsub.subset hu') with hu' | hu'
              · exact List.rel_of_pairwise_cons hgrowing hu'
              · rw [List.mem_singleton.mp hu']
                exact hlt r List.mem_cons_self
            · rcases List.mem_append.mp (hsub.subset hu) with hu | hu
              · exact Text.any_head?_or_left (hbegins u hu)
              · rw [List.mem_singleton.mp hu]
                exact Text.any_head?_or_right ht

/-- Shorter runs of a grammar with at most one alternative leave over one more iteration. -/
theorem LongestFirst.run (h : p.LongestFirst fun _ => false) (hp : p.Consumes)
    (hfirst : p.BeginsIn first) (b : Bounds) : (Grammar.repeated p b).LongestFirst first :=
  (h.repeated hp hfirst Text.apart_none b).mono fun c hc => by rwa [Bool.false_or] at hc

theorem BeginsIn.repeated (h : p.BeginsIn first) (hp : p.Consumes) {b : Bounds}
    (hmin : 0 < b.min) : (repeated p b).BeginsIn first := by
  intro t hrests
  refine h t fun hnil => hrests ?_
  have hstop : (if b.min ≤ 0 then [t] else []) = [] := if_neg (Nat.not_le_of_lt hmin)
  rw [rests_repeated, runRests_eq hp, hnil, hstop]
  split <;> rfl

/-! ### Lists with separators -/

/-- Without bounds it does not matter how many iterations have been made. -/
theorem runRests_atLeast_zero (hp : p.Consumes) (count count' : ℕ) (t : Text) :
    p.runRests (.atLeast 0) count t = p.runRests (.atLeast 0) count' t := by
  induction hn : t.length using Nat.strong_induction_on generalizing count count' t with
  | _ n ih =>
      rw [runRests_eq hp, runRests_eq hp]
      simp only [Bounds.atLeast, Option.any_none, Bool.false_eq_true, if_false, Nat.zero_le,
        if_true]
      congr 1
      exact List.flatMap_congr fun r hr => ih _ (hn ▸ hp.length_lt hr) _ _ r rfl

theorem rests_many (hp : p.Consumes) (t : Text) :
    (many p).rests t = (p.rests t).flatMap (many p).rests ++ [t] := by
  rw [many, rests_repeated, runRests_eq hp]
  simp only [Bounds.atLeast, Option.any_none, Bool.false_eq_true, if_false, Nat.zero_le, if_true]
  congr 1
  refine List.flatMap_congr fun r _ => ?_
  rw [rests_repeated]
  exact runRests_atLeast_zero hp 1 0 r

/-- A list goes on behind an item and a separator, or it ends with an item. -/
theorem rests_separatedBy {item separator : Grammar} (h : (and item separator).Consumes)
    (t : Text) :
    (separatedBy item separator).rests t =
      ((and item separator).rests t).flatMap (separatedBy item separator).rests ++
        item.rests t := by
  have hrests : (separatedBy item separator).rests = fun u =>
      ((many (and item separator)).rests u).flatMap item.rests := by
    funext u
    rw [separatedBy, rests_map, rests_and]
  rw [hrests]
  dsimp only
  rw [rests_many h, List.flatMap_append, List.flatMap_assoc, List.flatMap_singleton]

theorem BeginsIn.separatedBy {item separator : Grammar} (h : item.BeginsIn first)
    (hc : (item.and separator).Consumes) : (item.separatedBy separator).BeginsIn first := by
  intro t hrests
  refine h t fun hnil => hrests ?_
  have hnone : (item.and separator).rests t = [] := by rw [rests_and, hnil]; rfl
  rw [rests_separatedBy hc, hnone, hnil]
  rfl

/-- Only behind the longest alternative something can follow that has to begin otherwise. -/
theorem LongestFirst.length_le (hp : p.LongestFirst cls) (hfirst : q.BeginsIn first)
    (hapart : Apart cls first) {r : Text} (hr : r ∈ p.rests t) (hrests : q.rests r ≠ []) :
    ∀ u ∈ p.rests t, r.length ≤ u.length := by
  obtain ⟨hgrowing, hbegins⟩ := hp t
  cases hp : p.rests t with
  | nil => exact fun u hu => absurd hu List.not_mem_nil
  | cons longest others =>
      rw [hp] at hr hgrowing hbegins
      rcases List.mem_cons.mp hr with rfl | hr
      · intro u hu
        rcases List.mem_cons.mp hu with rfl | hu
        · exact le_rfl
        · exact (List.rel_of_pairwise_cons hgrowing hu).le
      · exact absurd (hfirst.rests_eq_nil hapart (hbegins r hr)) hrests

/-- A list is offered the longest first if a shorter item cannot be followed by a separator, nor a
shorter separator by an item. -/
theorem LongestFirst.separatedBy {item separator : Grammar} (hitem : item.LongestFirst cls)
    (hfirst : item.BeginsIn first) (hsep : separator.LongestFirst cls')
    (hfirst' : separator.BeginsIn first') (hc : separator.Consumes)
    (hapart : Apart cls first') (hapart' : Apart cls' first) (t : Text) :
    ((separatedBy item separator).rests t).Pairwise fun r r' => r.length < r'.length := by
  have hpair : (item.and separator).LongestFirst cls' := hitem.and_of_beginsIn hsep hfirst' hapart
  have hconsumes : (item.and separator).Consumes := .andSecond hc
  have hlist : (item.separatedBy separator).BeginsIn first := hfirst.separatedBy hconsumes
  induction hn : t.length using Nat.strong_induction_on generalizing t with
  | _ n ih =>
      rw [rests_separatedBy hconsumes]
      cases hrests : (item.and separator).rests t with
      | nil => exact (hitem t).growing
      | cons r rs =>
          have hrest : r ∈ (item.and separator).rests t := by simp [hrests]
          -- A shorter separator leaves over what no item begins with.
          have hothers : rs.flatMap (item.separatedBy separator).rests = [] := by
            refine List.flatMap_eq_nil_iff.mpr fun r' hr' => hlist.rests_eq_nil hapart' ?_
            exact (hpair t).begins r' (by rw [hrests]; exact hr')
          rw [List.flatMap_cons, hothers, List.append_nil]
          refine List.pairwise_append.mpr
            ⟨ih _ (hn ▸ hconsumes.length_lt hrest) r rfl, (hitem t).growing, fun u hu u' hu' => ?_⟩
          -- The separator of the longer lists stands behind the longest item.
          rw [rests_and] at hrest
          obtain ⟨v, hv, hr⟩ := List.mem_flatMap.mp hrest
          calc
            u.length ≤ r.length := (suffix_of_mem_rests hu).length_le
            _ < v.length := hc.length_lt hr
            _ ≤ u'.length :=
              hitem.length_le hfirst' hapart hv (List.ne_nil_of_mem hr) u' hu'

end Grammar

end Backtrack
