import Backtrack.Alternatives.Lemmas
import Mathlib.Data.Seq.Basic
import Mathlib.Order.BoundedOrder.Basic
import Mathlib.Order.Monotone.Basic

/-!
Eager lists of alternatives. A listing is a list of which possibly only the front is known: the
part behind an incomplete listing has not been worked out, so nothing can be appended to it.
Listings are ordered by how much is known, and a rising chain of them has a limit, which is a
possibly infinite list. A lazy sequence is read as the listing of everything it yields; under this
reading its operations are those of lists.
-/

namespace Backtrack

/-- A list of alternatives, or only the front of one if it is not complete. -/
@[ext]
structure Listing (α : Type) where
  items : List (Alternative α)
  complete : Bool

namespace Listing

variable {α β : Type}

def empty : Listing α := ⟨[], true⟩

def single (value : α) (rest : Text) : Listing α := ⟨[⟨value, rest⟩], true⟩

def cons (a : Alternative α) (l : Listing α) : Listing α := ⟨a :: l.items, l.complete⟩

/-- List append. Nothing follows a list of which only the front is known. -/
def append (l m : Listing α) : Listing α :=
  if l.complete then ⟨l.items ++ m.items, m.complete⟩ else l

def map (f : α → β) (l : Listing α) : Listing β := ⟨l.items.map (Alternative.map f), l.complete⟩

def flatMap (l : Listing α) (f : Alternative α → Listing β) : Listing β :=
  l.items.foldr (fun a later => (f a).append later) ⟨[], l.complete⟩

/-! ### How much is known

Between two listings of the same computation, one worked out further than the other, the shorter
one is an initial part of the longer, and equal to it once it is complete. -/

instance : PartialOrder (Listing α) where
  le l m := l.items <+: m.items ∧ (l.complete → l = m)
  le_refl l := ⟨List.prefix_rfl, fun _ => rfl⟩
  le_trans l m n hlm hmn :=
    ⟨hlm.1.trans hmn.1, fun hl => by obtain rfl := hlm.2 hl; exact hmn.2 hl⟩
  le_antisymm l m hlm hml := by
    cases hl : l.complete with
    | true => exact hlm.2 hl
    | false =>
        cases hm : m.complete with
        | true => exact (hml.2 hm).symm
        | false =>
            have hitems : l.items = m.items :=
              hlm.1.eq_of_length (le_antisymm hlm.1.length_le hml.1.length_le)
            exact Listing.ext hitems (hl.trans hm.symm)

instance : OrderBot (Listing α) where
  bot := ⟨[], false⟩
  bot_le _ := ⟨List.nil_prefix, fun h => absurd h Bool.false_ne_true⟩

theorem eq_of_le {l m : Listing α} (h : l ≤ m) (hl : l.complete) : l = m := h.2 hl

theorem le_of_prefix {l m : Listing α} (hl : l.complete = false) (h : l.items <+: m.items) :
    l ≤ m := by
  refine ⟨h, fun hc => ?_⟩
  rw [hl] at hc
  cases hc

/-! ### The operations, one alternative at a time -/

@[simp] theorem items_empty : (empty : Listing α).items = [] := rfl

@[simp] theorem complete_empty : (empty : Listing α).complete = true := rfl

@[simp] theorem items_single (v : α) (r : Text) : (single v r).items = [⟨v, r⟩] := rfl

@[simp] theorem complete_single (v : α) (r : Text) : (single v r).complete = true := rfl

@[simp] theorem items_map (f : α → β) (l : Listing α) :
    (l.map f).items = l.items.map (Alternative.map f) := rfl

@[simp] theorem complete_map (f : α → β) (l : Listing α) : (l.map f).complete = l.complete := rfl

@[simp] theorem empty_append (l : Listing α) : empty.append l = l := rfl

@[simp] theorem bot_append (l : Listing α) : (⊥ : Listing α).append l = ⊥ := rfl

@[simp] theorem cons_append (a : Alternative α) (l m : Listing α) :
    (cons a l).append m = cons a (l.append m) := by
  unfold append cons
  split <;> rfl

@[simp] theorem empty_flatMap (f : Alternative α → Listing β) : empty.flatMap f = empty := rfl

@[simp] theorem bot_flatMap (f : Alternative α → Listing β) : (⊥ : Listing α).flatMap f = ⊥ := rfl

@[simp] theorem cons_flatMap (a : Alternative α) (l : Listing α) (f : Alternative α → Listing β) :
    (cons a l).flatMap f = (f a).append (l.flatMap f) := rfl

/-- A property of listings that holds if it can be shown from the front. -/
@[elab_as_elim, induction_eliminator]
theorem induction {P : Listing α → Prop} (empty : P empty) (bot : P ⊥)
    (cons : ∀ a l, P l → P (cons a l)) (l : Listing α) : P l := by
  obtain ⟨items, complete⟩ := l
  induction items with
  | nil => cases complete <;> assumption
  | cons a items ih => exact cons a ⟨items, complete⟩ ih

theorem map_append (f : α → β) (l m : Listing α) :
    (l.append m).map f = (l.map f).append (m.map f) := by
  unfold append
  split <;> simp_all [map]

theorem map_flatMap {γ : Type} (g : β → γ) (l : Listing α) (f : Alternative α → Listing β) :
    (l.flatMap f).map g = l.flatMap fun a => (f a).map g := by
  induction l with
  | empty => rfl
  | bot => rfl
  | cons a l ih => rw [cons_flatMap, map_append, ih, cons_flatMap]

theorem map_map {γ : Type} (g : β → γ) (f : α → β) (l : Listing α) :
    (l.map f).map g = l.map fun v => g (f v) := by
  simp only [map, List.map_map]
  rfl

theorem complete_append {l m : Listing α} : (l.append m).complete ↔ l.complete ∧ m.complete := by
  unfold append
  split <;> simp_all

theorem items_append {l : Listing α} (h : l.complete) (m : Listing α) :
    (l.append m).items = l.items ++ m.items := by
  simp [append, h]

theorem complete_flatMap {l : Listing α} {f : Alternative α → Listing β} :
    (l.flatMap f).complete ↔ l.complete ∧ ∀ a ∈ l.items, (f a).complete := by
  induction l with
  | empty => simp
  | bot => exact ⟨fun h => absurd h Bool.false_ne_true, fun h => absurd h.1 Bool.false_ne_true⟩
  | cons a l ih =>
      rw [cons_flatMap, complete_append, ih]
      simp only [cons, List.forall_mem_cons]
      tauto

theorem items_flatMap {l : Listing α} {f : Alternative α → Listing β}
    (h : (l.flatMap f).complete) :
    (l.flatMap f).items = l.items.flatMap fun a => (f a).items := by
  induction l with
  | empty => rfl
  | bot => rfl
  | cons a l ih =>
      rw [cons_flatMap, complete_append] at h
      rw [cons_flatMap, items_append h.1, ih h.2]
      rfl

theorem mem_append {l m : Listing α} {a : Alternative α} (h : a ∈ (l.append m).items) :
    a ∈ l.items ∨ a ∈ m.items := by
  unfold append at h
  split at h
  · exact List.mem_append.mp h
  · exact Or.inl h

theorem mem_flatMap {l : Listing α} {f : Alternative α → Listing β} {b : Alternative β}
    (h : b ∈ (l.flatMap f).items) : ∃ a ∈ l.items, b ∈ (f a).items := by
  induction l with
  | empty => cases h
  | bot => cases h
  | cons a l ih =>
      rcases mem_append h with h | h
      · exact ⟨a, List.mem_cons_self, h⟩
      · obtain ⟨a', ha', hb⟩ := ih h
        exact ⟨a', List.mem_cons_of_mem a ha', hb⟩

/-! ### The operations keep the order -/

theorem map_mono (f : α → β) {l m : Listing α} (h : l ≤ m) : l.map f ≤ m.map f :=
  ⟨h.1.map _, fun hl => congrArg (map f) (h.2 hl)⟩

theorem append_mono {l l' m m' : Listing α} (hl : l ≤ l') (hm : m ≤ m') :
    l.append m ≤ l'.append m' := by
  cases hc : l.complete with
  | true =>
      obtain rfl := eq_of_le hl hc
      refine ⟨?_, fun h => ?_⟩
      · rw [items_append hc, items_append hc]
        exact (List.prefix_append_right_inj l.items).mpr hm.1
      · rw [eq_of_le hm (complete_append.mp h).2]
  | false =>
      have happend : l.append m = l := by simp [append, hc]
      rw [happend]
      refine le_of_prefix hc (hl.1.trans ?_)
      unfold append
      split
      · exact List.prefix_append _ _
      · exact List.prefix_rfl

/-- Branches that belong to no known alternative do not matter. -/
theorem flatMap_mono {l l' : Listing α} {f f' : Alternative α → Listing β} (hl : l ≤ l')
    (hf : ∀ a ∈ l.items, f a ≤ f' a) : l.flatMap f ≤ l'.flatMap f' := by
  induction l generalizing l' with
  | empty => obtain rfl := eq_of_le hl rfl; exact le_refl _
  | bot => exact bot_le
  | cons a l ih =>
      obtain ⟨items, complete⟩ := l'
      cases items with
      | nil => exact absurd hl.1.length_le (Nat.not_succ_le_zero _)
      | cons b items =>
          obtain ⟨rfl, hfront⟩ := List.cons_prefix_cons.mp hl.1
          have htail : l ≤ ⟨items, complete⟩ := by
            refine ⟨hfront, fun hc => ?_⟩
            have heq := hl.2 hc
            simp only [cons, Listing.mk.injEq, List.cons.injEq, true_and] at heq
            exact Listing.ext heq.1 heq.2
          exact append_mono (hf a List.mem_cons_self)
            (ih htail fun b hb => hf b (List.mem_cons_of_mem a hb))

/-! ### Limits

The limit of a rising chain holds at each position what some listing of the chain holds there. -/

section Limit

variable {l : ℕ → Listing α}

/-- What one listing of a rising chain holds at a position, all later ones hold as well. -/
theorem getElem?_of_le (hl : Monotone l) {m n : ℕ} (h : m ≤ n) {i : ℕ}
    (hi : i < (l m).items.length) : (l n).items[i]? = (l m).items[i]? := by
  obtain ⟨more, hmore⟩ := (hl h).1
  rw [← hmore, List.getElem?_append_left hi]

open Classical in
noncomputable def limitAt (l : ℕ → Listing α) (i : ℕ) : Option (Alternative α) :=
  if h : ∃ n, i < (l n).items.length then (l h.choose).items[i]? else none

theorem limitAt_eq (hl : Monotone l) {n i : ℕ} (hi : i < (l n).items.length) :
    limitAt l i = (l n).items[i]? := by
  have h : ∃ n, i < (l n).items.length := ⟨n, hi⟩
  rw [limitAt, dif_pos h]
  rcases le_total h.choose n with hle | hle
  · exact (getElem?_of_le hl hle h.choose_spec).symm
  · exact getElem?_of_le hl hle hi

theorem limitAt_eq_none {i : ℕ} : limitAt l i = none ↔ ∀ n, (l n).items.length ≤ i := by
  unfold limitAt
  split
  · rename_i h
    have hlt := h.choose_spec
    simp only [List.getElem?_eq_getElem hlt, reduceCtorEq, false_iff, not_forall, not_le]
    exact h
  · rename_i h
    simpa using h

/-- The possibly infinite list that a rising chain of listings approaches. -/
noncomputable def limit (l : ℕ → Listing α) : Stream'.Seq (Alternative α) :=
  ⟨limitAt l, fun {i} h => by
    rw [limitAt_eq_none] at h ⊢
    exact fun n => (h n).trans (Nat.le_succ i)⟩

theorem get?_limit (i : ℕ) : (limit l).get? i = limitAt l i := rfl

theorem limit_eq_of_complete (hl : Monotone l) {n : ℕ} (hn : (l n).complete) :
    limit l = Stream'.Seq.ofList (l n).items := by
  ext1 i
  rw [get?_limit, Stream'.Seq.ofList_get?]
  by_cases hi : i < (l n).items.length
  · exact limitAt_eq hl hi
  · rw [List.getElem?_eq_none (not_lt.mp hi), limitAt_eq_none]
    intro m
    rcases le_total n m with hle | hle
    · rw [← eq_of_le (hl hle) hn]
      exact not_lt.mp hi
    · exact (hl hle).1.length_le.trans (not_lt.mp hi)

/-- The front of a listing of the chain is a front of the limit, and all of the front of that
length unless more of the limit is still unknown. -/
theorem take_prefix_take_limit (hl : Monotone l) (n k : ℕ) :
    (l n).items.take k <+: (limit l).take k := by
  rw [List.prefix_iff_getElem?]
  intro i hi
  rw [List.length_take] at hi
  have hik : i < k := lt_of_lt_of_le hi (min_le_left _ _)
  have hin : i < (l n).items.length := lt_of_lt_of_le hi (min_le_right _ _)
  rw [Stream'.Seq.getElem?_take, if_pos hik, get?_limit, limitAt_eq hl hin,
    List.getElem?_eq_getElem hin, List.getElem_take]

theorem take_limit_of_complete (hl : Monotone l) {n : ℕ} (hn : (l n).complete) (k : ℕ) :
    (limit l).take k = (l n).items.take k := by
  rw [limit_eq_of_complete hl hn]
  apply List.ext_getElem?
  intro i
  rw [Stream'.Seq.getElem?_take, Stream'.Seq.ofList_get?, List.getElem?_take]

/-- Each front of the limit is the front of all listings of the chain from some point on. -/
theorem exists_take_limit (hl : Monotone l) (k : ℕ) :
    ∃ n, ∀ m ≥ n, (l m).items.take k = (limit l).take k := by
  -- The front is as long as some listing, as otherwise its last place would be empty.
  have hreach : ∃ n, ((limit l).take k).length ≤ (l n).items.length := by
    rcases Nat.eq_zero_or_pos ((limit l).take k).length with h | h
    · exact ⟨0, by omega⟩
    · by_contra hne
      simp only [not_exists, not_le] at hne
      have hlast : ((limit l).take k)[((limit l).take k).length - 1]? = none := by
        rw [Stream'.Seq.getElem?_take, get?_limit]
        split
        · exact limitAt_eq_none.mpr fun n => Nat.le_sub_one_of_lt (hne n)
        · rfl
      rw [List.getElem?_eq_none_iff] at hlast
      omega
  obtain ⟨n, hn⟩ := hreach
  refine ⟨n, fun m hm => ?_⟩
  refine (take_prefix_take_limit hl m k).eq_of_length_le ?_
  rw [List.length_take]
  exact le_min Stream'.Seq.length_take_le (hn.trans (hl hm).1.length_le)

end Limit

end Listing

/-! ### Lazy sequences as listings -/

namespace Alternatives

variable {α β : Type}

/-- Everything that a sequence yields, complete unless the sequence is cut off. -/
def listing (s : Alternatives α) : Listing α := ⟨s.toList, s.ends⟩

@[simp] theorem listing_exhausted (c : List Call) :
    (exhausted c : Alternatives α).listing = .empty := rfl

@[simp] theorem listing_cutOff (c : List Call) : (cutOff c : Alternatives α).listing = ⊥ := rfl

@[simp] theorem listing_next (c : List Call) (a : Alternative α)
    (tail : Unit → Alternatives α) :
    (next c a tail).listing = .cons a (tail ()).listing := rfl

@[simp] theorem listing_after (c : List Call) (s : Alternatives α) :
    (s.after c).listing = s.listing := by
  cases s <;> rfl

theorem listing_map (f : α → β) (s : Alternatives α) : (map f s).listing = s.listing.map f := by
  simp only [listing, toList_map, ends_map, Listing.map]

theorem listing_append (later : Unit → Opening α) (s : Alternatives α) :
    (append later s).listing = s.listing.append ((later ()).alternatives ()).listing := by
  induction s with
  | exhausted c => simp
  | cutOff c => rfl
  | next c a tail ih => simp [ih ()]

theorem listing_bind (f : Alternative α → Opening β) (s : Alternatives α) :
    (bind f s).listing = s.listing.flatMap fun a => ((f a).alternatives ()).listing := by
  induction s with
  | exhausted c => rfl
  | cutOff c => rfl
  | next c a tail ih => rw [bind_next, listing_after, listing_append, ih (), listing_next,
      Listing.cons_flatMap]

/-- The end is seen by the first pull that finds nothing, if the sequence has an end. -/
theorem finished_pull (k : ℕ) (s : Unit → Alternatives α) :
    (pull k s).finished = ((s ()).ends && decide ((s ()).toList.length < k)) := by
  induction k generalizing s with
  | zero => simp [pull]
  | succ k ih =>
      rw [pull]
      cases s () with
      | exhausted c => rfl
      | cutOff c => rfl
      | next c a tail => simp [ih tail, ends, toList]

end Alternatives

namespace Opening

variable {α β : Type}

def listing (o : Opening α) : Listing α := (o.alternatives ()).listing

@[simp] theorem listing_empty : (empty : Opening α).listing = .empty := rfl

@[simp] theorem listing_single (v : α) (r : Text) : (single v r).listing = .single v r := rfl

@[simp] theorem listing_cut : (cut : Opening α).listing = ⊥ := rfl

@[simp] theorem listing_map (f : α → β) (o : Opening α) :
    (o.map f).listing = o.listing.map f := Alternatives.listing_map f _

@[simp] theorem listing_append (o : Opening α) (later : Unit → Opening α) :
    (o.append later).listing = o.listing.append (later ()).listing :=
  Alternatives.listing_append later _

@[simp] theorem listing_bind (o : Opening α) (f : Alternative α → Opening β) :
    (o.bind f).listing = o.listing.flatMap fun a => (f a).listing := Alternatives.listing_bind f _

end Opening

end Backtrack
