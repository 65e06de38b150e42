import Backtrack.Proofs.Suffix

/-!
Prefix locality. Without a look at the end of the input, what follows an accepted part of a text
cannot change the ways to parse that part: the alternatives on `s ++ t` that stay inside `s` are
the alternatives on `s`, in the same order and with the same values.
-/

namespace Backtrack

namespace Alternative

variable {α β : Type}

def followedBy (t : Text) (a : Alternative α) : Alternative α := ⟨a.value, a.rest ++ t⟩

/-- Whether the alternative leaves over as much as `t`, and so takes nothing of it. -/
def spares (t : Text) (a : Alternative α) : Bool := t.byteLength ≤ a.rest.byteLength

theorem spares_iff {t : Text} {a : Alternative α} :
    a.spares t ↔ t.byteLength ≤ a.rest.byteLength := decide_eq_true_iff

@[simp] theorem spares_followedBy (t : Text) (a : Alternative α) : (a.followedBy t).spares t := by
  simp [spares_iff, followedBy]

end Alternative

namespace Listing

open Backtrack.Alternative

variable {α β : Type} {t : Text}

/-- The list `m` of a longer text agrees with the list `l` of its front: followed by `t`, the
alternatives of `l` are those of `m` that spare `t`. -/
def LocalTo (t : Text) (l m : Listing α) : Prop :=
  l.complete → m.complete → m.items.filter (·.spares t) = l.items.map (followedBy t)

variable {l l' m m' : Listing α}

theorem localTo_bot_left : LocalTo t ⊥ m := fun h => absurd h Bool.false_ne_true

theorem localTo_bot_right : LocalTo t l ⊥ := fun _ h => absurd h Bool.false_ne_true

theorem localTo_empty : LocalTo t (empty : Listing α) empty := fun _ _ => rfl

theorem localTo_single (v : α) (r : Text) : LocalTo t (single v r) (single v (r ++ t)) := by
  intro _ _
  exact List.filter_cons_of_pos (spares_followedBy t (⟨v, r⟩ : Alternative α))

/-- An alternative that takes some of what follows has no counterpart. -/
theorem localTo_empty_single {v : α} {r : Text} (h : r.byteLength < t.byteLength) :
    LocalTo t empty (single v r) := by
  intro _ _
  exact List.filter_cons_of_neg fun hspares => absurd (spares_iff.mp hspares) (not_le.mpr h)

theorem LocalTo.map (h : LocalTo t l m) (f : α → β) : LocalTo t (l.map f) (m.map f) := by
  intro hl hm
  rw [items_map, items_map, List.filter_map, List.map_map]
  show (m.items.filter (·.spares t)).map (Alternative.map f) = _
  rw [h hl hm, List.map_map]
  rfl

theorem LocalTo.append (h : LocalTo t l m) (h' : LocalTo t l' m') :
    LocalTo t (l.append l') (m.append m') := by
  intro hl hm
  rw [complete_append] at hl hm
  rw [items_append hl.1, items_append hm.1, List.filter_append, List.map_append, h hl.1 hm.1,
    h' hl.2 hm.2]

/-- Alternatives that take some of what follows only lead to such, so dropping them first makes
no difference. -/
theorem filter_spares_flatMap {g : Alternative α → Listing β}
    (hg : ∀ a, (g a).LeavesEndOf a.rest) (as : List (Alternative α)) :
    ((as.flatMap fun a => (g a).items).filter (·.spares t)) =
      (as.filter (·.spares t)).flatMap fun a => (g a).items.filter (·.spares t) := by
  induction as with
  | nil => rfl
  | cons a as ih =>
      rw [List.flatMap_cons, List.filter_append, ih]
      by_cases ha : a.spares t
      · rw [List.filter_cons_of_pos ha, List.flatMap_cons]
      · have hnone : (g a).items.filter (·.spares t) = [] := by
          rw [List.filter_eq_nil_iff]
          intro b hb hspares
          have hle := Text.byteLength_le_of_suffix (hg a b hb)
          exact ha (spares_iff.mpr ((spares_iff.mp hspares).trans hle))
        rw [List.filter_cons_of_neg ha, hnone, List.nil_append]

theorem LocalTo.flatMap {f g : Alternative α → Listing β} (h : LocalTo t l m)
    (hfg : ∀ a ∈ l.items, LocalTo t (f a) (g (a.followedBy t)))
    (hg : ∀ a, (g a).LeavesEndOf a.rest) : LocalTo t (l.flatMap f) (m.flatMap g) := by
  intro hl hm
  rw [items_flatMap hl, items_flatMap hm, filter_spares_flatMap hg]
  rw [complete_flatMap] at hl hm
  rw [h hl.1 hm.1, List.flatMap_map, List.map_flatMap]
  -- The branches of `m` are complete as well, since each alternative of `l` has its counterpart.
  refine List.flatMap_congr fun a ha => hfg a ha (hl.2 a ha) (hm.2 _ ?_)
  have hmem : a.followedBy t ∈ m.items.filter (·.spares t) := by
    rw [h hl.1 hm.1]
    exact List.mem_map_of_mem ha
  exact List.mem_of_mem_filter hmem

theorem localTo_stop (b : Bounds) (count : ℕ) (values : List α) (s : Text) :
    LocalTo t (if b.min ≤ count then single values s else .empty)
      (if b.min ≤ count then single values (s ++ t) else .empty) := by
  split
  · exact localTo_single values s
  · exact localTo_empty

theorem localTo_repeatFrom {p q : Text → Listing α}
    (hpq : ∀ s, LocalTo t (p s) (q (s ++ t))) (hq : ∀ s, (q s).LeavesEndOf s) (b : Bounds)
    (count : ℕ) (s : Text) :
    LocalTo t (repeatFrom p b count s) (repeatFrom q b count (s ++ t)) := by
  induction hn : s.length using Nat.strong_induction_on generalizing count s with
  | _ n ih =>
      have hstop := localTo_stop (t := t) b count ([] : List α) s
      unfold repeatFrom
      dsimp only
      split
      · exact hstop
      · refine ((hpq s).flatMap (fun a _ => ?_) fun a => ?_).append hstop
        -- What follows lengthens the text and the rest alike, so on both texts an iteration counts
        -- as empty together.
        · have hempty : (a.followedBy t).rest.length < (s ++ t).length ↔
              a.rest.length < s.length := by
            simp [followedBy]
          simp only [hempty]
          split
          · rename_i hlt
            exact (ih _ (hn ▸ hlt) (count + 1) a.rest rfl).map _
          · exact localTo_stop b (count + 1) [a.value] a.rest
        · exact leavesEndOf_tail b (count + 1) fun _ =>
            leavesEndOf_repeatFrom hq b (count + 1) a.rest

end Listing

namespace Grammar

/-- The grammar does not look for the end of the input, neither itself nor in what its values are
continued with. -/
inductive EndFree : Grammar → Prop
  | any : EndFree any
  | satisfy (accepts : Char → Bool) : EndFree (satisfy accepts)
  | literal (s : Text) : EndFree (literal s)
  | succeed (v : Value) : EndFree (succeed v)
  | fail : EndFree fail
  | bind {p : Grammar} {f : Value → Grammar} (hp : EndFree p) (hf : ∀ v, EndFree (f v)) :
      EndFree (bind p f)
  | and {p q : Grammar} (hp : EndFree p) (hq : EndFree q) : EndFree (and p q)
  | or {p q : Grammar} (hp : EndFree p) (hq : EndFree q) : EndFree (or p q)
  | choice {ps : List Grammar} (h : ∀ p ∈ ps, EndFree p) : EndFree (choice ps)
  | sequence {ps : List Grammar} (h : ∀ p ∈ ps, EndFree p) : EndFree (sequence ps)
  | map {p : Grammar} {f : Value → Value} (hp : EndFree p) : EndFree (map p f)
  | repeated {p : Grammar} {b : Bounds} (hp : EndFree p) : EndFree (repeated p b)
  | optional {p : Grammar} (hp : EndFree p) : EndFree (optional p)
  | delayed {p : Unit → Grammar} (hp : EndFree (p ())) : EndFree (delayed p)
  | rule (name : String) : EndFree (rule name)
  | probe {label : String} {p : Grammar} (hp : EndFree p) : EndFree (probe label p)

section

variable {lists lists' : String → Text → Listing Value} {t : Text}

theorem localTo_literal (l s : Text) :
    Listing.LocalTo t ((literal l).eager lists s) ((literal l).eager lists' (s ++ t)) := by
  unfold eager
  by_cases hs : l <+: s
  · obtain ⟨r, rfl⟩ := hs
    rw [if_pos (List.prefix_append l r), List.append_assoc, if_pos (List.prefix_append l _),
      List.drop_left, List.drop_left]
    exact Listing.localTo_single _ r
  · rw [if_neg hs]
    split
    -- A literal that is found on `s ++ t` only reaches into `t`.
    · rename_i hst
      have hlen : s.length < l.length := by
        by_contra hle
        exact hs (List.prefix_of_prefix_length_le hst (List.prefix_append s t) (not_lt.mp hle))
      have hlen' := hst.length_le
      rw [List.length_append] at hlen'
      have hdrop : (s ++ t).drop l.length = t.drop (l.length - s.length) := by
        rw [List.drop_append, List.drop_eq_nil_of_le hlen.le, List.nil_append]
      refine Listing.localTo_empty_single ?_
      rw [hdrop, Text.byteLength_lt_iff_of_suffix (List.drop_suffix _ t), List.length_drop]
      omega
    · exact Listing.localTo_empty

theorem localTo_nil_cons (accepts : Char → Bool) {c : Char} {r : Text} :
    Listing.LocalTo (c :: r) .empty
      (if accepts c then Listing.single (Value.text [c]) r else .empty) := by
  split
  · have hpos := c.utf8Size_pos
    exact Listing.localTo_empty_single (by rw [Text.byteLength_cons]; omega)
  · exact Listing.localTo_empty

theorem localTo_choice (ps : List Grammar) (s : Text)
    (h : ∀ p ∈ ps, Listing.LocalTo t (p.eager lists s) (p.eager lists' (s ++ t))) :
    Listing.LocalTo t (eager.eagerChoice lists ps s) (eager.eagerChoice lists' ps (s ++ t)) := by
  induction ps with
  | nil => exact Listing.localTo_empty
  | cons p ps ih =>
      exact (h p List.mem_cons_self).append (ih fun q hq => h q (List.mem_cons_of_mem p hq))

theorem localTo_sequence (ps : List Grammar) (s : Text)
    (h : ∀ p ∈ ps, ∀ s, Listing.LocalTo t (p.eager lists s) (p.eager lists' (s ++ t)))
    (hend : ∀ name s, (lists' name s).LeavesEndOf s) :
    Listing.LocalTo t (eager.eagerSequence lists ps s)
      (eager.eagerSequence lists' ps (s ++ t)) := by
  induction ps generalizing s with
  | nil => exact Listing.localTo_single [] s
  | cons p ps ih =>
      refine (h p List.mem_cons_self s).flatMap (fun a _ => ?_) fun a => ?_
      · exact (ih a.rest fun q hq => h q (List.mem_cons_of_mem p hq)).map _
      · exact (leavesEndOf_sequence (fun q _ => leavesEndOf_eager hend q) a.rest).map _

/-- A grammar without a look at the end is local if the rules are. -/
theorem EndFree.localTo_eager {g : Grammar} (hg : g.EndFree)
    (h : ∀ name s, Listing.LocalTo t (lists name s) (lists' name (s ++ t)))
    (hend : ∀ name s, (lists' name s).LeavesEndOf s) (s : Text) :
    Listing.LocalTo t (g.eager lists s) (g.eager lists' (s ++ t)) := by
  have hends := fun g : Grammar => leavesEndOf_eager hend g
  induction hg generalizing s with
  | any =>
      cases s with
      | nil =>
          cases t with
          | nil => exact Listing.localTo_empty
          | cons c t => exact localTo_nil_cons fun _ => true
      | cons c s => exact Listing.localTo_single _ s
  | satisfy accepts =>
      cases s with
      | nil =>
          cases t with
          | nil => exact Listing.localTo_empty
          | cons c t => exact localTo_nil_cons accepts
      | cons c s =>
          show Listing.LocalTo t (if _ then _ else _) (if _ then _ else _)
          split
          · exact Listing.localTo_single _ s
          · exact Listing.localTo_empty
  | literal l => exact localTo_literal l s
  | succeed v => exact Listing.localTo_single v s
  | fail => exact Listing.localTo_empty
  | bind _ _ ihp ihf =>
      exact (ihp s).flatMap (fun a _ => ihf a.value a.rest) fun a => hends _ a.rest
  | and _ _ ihp ihq =>
      exact (ihp s).flatMap (fun a _ => (ihq a.rest).map _) fun a => (hends _ a.rest).map _
  | or _ _ ihp ihq => exact (ihp s).append (ihq s)
  | choice _ ih => exact localTo_choice _ s fun p hp => ih p hp s
  | sequence _ ih => exact (localTo_sequence _ s ih hend).map _
  | map _ ih => exact (ih s).map _
  | repeated _ ih => exact (Listing.localTo_repeatFrom ih (hends _) _ 0 s).map _
  | optional _ ih => exact ((ih s).map _).append (Listing.localTo_single _ s)
  | delayed _ ih => exact ih s
  | rule name => exact h name s
  | probe _ ih => exact ih s

end

end Grammar

theorem Rules.localTo_eager {rules : Rules} (h : ∀ name, (rules.get name).EndFree) (t : Text)
    (m n : ℕ) (name : String) (s : Text) :
    Listing.LocalTo t (rules.eager m name s) (rules.eager n name (s ++ t)) := by
  induction m generalizing n name s with
  | zero => exact Listing.localTo_bot_left
  | succ m ih =>
      cases n with
      | zero => exact Listing.localTo_bot_right
      | succ n => exact (h name).localTo_eager (ih n) (rules.leavesEndOf_eager n) s

namespace Grammar

/-- An alternative takes at most the bytes of `s` of the text `s ++ t` if it spares `t`. -/
theorem consumed_le_iff (a : Alternative Value) (s t : Text) :
    a.consumed (s ++ t) ≤ s.byteLength ↔ a.spares t := by
  rw [Alternative.consumed, Text.byteLength_append, Alternative.spares_iff]
  omega

/-- **Prefix locality.** If a grammar over rules nowhere looks for the end of the input, and its
alternatives come to an end on `s` and on `s ++ t`, then those on `s ++ t` that take at most the
bytes of `s` are those on `s`, in the same order and with the same values, each with `t` behind
its rest. -/
theorem alternatives_of_front {g : Grammar} {rules : Rules} (hg : g.EndFree)
    (hrules : ∀ name, (rules.get name).EndFree) (s t : Text) (m n : ℕ)
    (hs : ((g.within rules m s).alternatives ()).ends)
    (hst : ((g.within rules n (s ++ t)).alternatives ()).ends) :
    ((g.within rules n (s ++ t)).alternatives ()).toList.filter
        (fun a => a.consumed (s ++ t) ≤ s.byteLength) =
      ((g.within rules m s).alternatives ()).toList.map fun a => ⟨a.value, a.rest ++ t⟩ := by
  have hlocal := hg.localTo_eager (Rules.localTo_eager hrules t m n) (rules.leavesEndOf_eager n) s
  have hlist := listing_within g rules s m
  have hlist' := listing_within g rules (s ++ t) n
  change Listing.LocalTo t (g.eagerWithin rules s m) (g.eagerWithin rules (s ++ t) n) at hlocal
  rw [← hlist, ← hlist'] at hlocal
  simp only [consumed_le_iff, Bool.decide_eq_true]
  exact hlocal hs hst

theorem alternatives_of_front_aa :
    let rules : Rules := [("as", .or (.and (.literal ['a']) (.rule "as")) (.succeed .unit))]
    let g : Grammar := .and (.rule "as") (.optional (.literal ['a', 'b']))
    g.EndFree ∧ (∀ name, (rules.get name).EndFree) ∧
      ((g.within rules 3 ['a', 'a']).alternatives ()).ends ∧
      ((g.within rules 4 (['a', 'a'] ++ ['b'])).alternatives ()).ends ∧
      ((g.within rules 4 (['a', 'a'] ++ ['b'])).alternatives ()).toList.length = 4 ∧
      ((g.within rules 4 (['a', 'a'] ++ ['b'])).alternatives ()).toList.filter
          (fun a => a.consumed (['a', 'a'] ++ ['b']) ≤ Text.byteLength ['a', 'a']) =
        ((g.within rules 3 ['a', 'a']).alternatives ()).toList.map
          fun a => ⟨a.value, a.rest ++ ['b']⟩ := by
  intro rules g
  have hruns : ((g.within rules 3 ['a', 'a']).alternatives ()).ends ∧
      ((g.within rules 4 (['a', 'a'] ++ ['b'])).alternatives ()).ends ∧
      ((g.within rules 4 (['a', 'a'] ++ ['b'])).alternatives ()).toList.length = 4 := by
    decide +revert
  obtain ⟨hs, hst, hlength⟩ := hruns
  have hg : g.EndFree := .and (.rule "as") (.optional (.literal _))
  have hrules : ∀ name, (rules.get name).EndFree := by
    refine Rules.get_induction .fail fun rule hrule => ?_
    obtain rfl := List.mem_singleton.mp hrule
    exact .or (.and (.literal _) (.rule "as")) (.succeed .unit)
  refine ⟨hg, hrules, hs, hst, hlength, ?_⟩
  exact alternatives_of_front hg hrules ['a', 'a'] ['b'] 3 4 hs hst

end Grammar

end Backtrack
