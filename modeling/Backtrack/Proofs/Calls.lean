import Backtrack.Proofs.Selection
import Backtrack.Proofs.Suffix

/-!
Everything that a run touches is an end of its input: the texts on which labelled grammars are
called, wherever they stand, as well as what the alternatives leave over. So whatever is left over
has no more bytes than the input, and is determined by how many bytes it has.
-/

namespace Backtrack

namespace Alternatives

variable {α β : Type}

def allCalls : Alternatives α → List Call
  | exhausted calls => calls
  | cutOff calls => calls
  | next calls _ tail => calls ++ allCalls (tail ())

@[simp] theorem allCalls_after (c : List Call) (s : Alternatives α) :
    (s.after c).allCalls = c ++ s.allCalls := by
  cases s <;> simp [allCalls]

theorem allCalls_map (f : α → β) (s : Alternatives α) : (map f s).allCalls = s.allCalls := by
  induction s with
  | exhausted c => rfl
  | cutOff c => rfl
  | next c a tail ih => rw [map, allCalls, allCalls, ih ()]

theorem calls_pull_subset (k : ℕ) (s : Unit → Alternatives α) :
    (pull k s).calls ⊆ (s ()).allCalls := by
  induction k generalizing s with
  | zero => exact List.nil_subset _
  | succ k ih =>
      rw [pull]
      cases s () with
      | exhausted c => exact List.Subset.refl c
      | cutOff c => exact List.Subset.refl c
      | next c a tail =>
          exact List.append_subset.mpr ⟨List.subset_append_left _ _,
            List.Subset.trans (ih tail) (List.subset_append_right _ _)⟩

end Alternatives

namespace Opening

variable {α β : Type}

def allCalls (o : Opening α) : List Call := o.calls ++ (o.alternatives ()).allCalls

end Opening

namespace Alternatives

variable {α β : Type}

theorem allCalls_append_subset (later : Unit → Opening α) (s : Alternatives α) :
    (append later s).allCalls ⊆ s.allCalls ++ (later ()).allCalls := by
  induction s with
  | exhausted c =>
      rw [append_exhausted, allCalls_after, List.append_assoc]
      exact List.Subset.refl _
  | cutOff c => exact List.subset_append_left _ _
  | next c a tail ih =>
      rw [append_next, allCalls, allCalls, List.append_assoc]
      exact List.append_subset.mpr ⟨List.subset_append_left _ _,
        List.Subset.trans (ih ()) (List.subset_append_right _ _)⟩

/-- The calls of a concatenation are made by the first sequence or by one of the branches. -/
theorem mem_allCalls_bind {f : Alternative α → Opening β} {s : Alternatives α} {call : Call}
    (h : call ∈ (bind f s).allCalls) :
    call ∈ s.allCalls ∨ ∃ a ∈ s.toList, call ∈ (f a).allCalls := by
  induction s with
  | exhausted c => exact .inl h
  | cutOff c => exact .inl h
  | next c a tail ih =>
      rw [bind_next, allCalls_after, List.append_assoc, List.mem_append, List.mem_append] at h
      rcases h with h | h | h
      · exact .inl (List.mem_append_left _ h)
      · exact .inr ⟨a, List.mem_cons_self, List.mem_append_left _ h⟩
      · rcases List.mem_append.mp (allCalls_append_subset _ _ h) with h | h
        · exact .inr ⟨a, List.mem_cons_self, List.mem_append_right _ h⟩
        · rcases ih () h with h | ⟨b, hb, h⟩
          · exact .inl (List.mem_append_right _ h)
          · exact .inr ⟨b, List.mem_cons_of_mem a hb, h⟩

end Alternatives

namespace Opening

variable {α β : Type} {o : Opening α} {t u : Text}

def CallsOnEndsOf (o : Opening α) (t : Text) : Prop := ∀ call ∈ o.allCalls, call.text <:+ t

theorem callsOnEndsOf_empty : (empty : Opening α).CallsOnEndsOf t :=
  fun _ h => absurd h List.not_mem_nil

theorem callsOnEndsOf_single (v : α) (r : Text) : (single v r).CallsOnEndsOf t :=
  fun _ h => absurd h List.not_mem_nil

theorem callsOnEndsOf_cut : (cut : Opening α).CallsOnEndsOf t :=
  fun _ h => absurd h List.not_mem_nil

theorem CallsOnEndsOf.map (h : o.CallsOnEndsOf t) (f : α → β) : (o.map f).CallsOnEndsOf t := by
  intro call hcall
  rw [allCalls, Opening.map, Alternatives.allCalls_map] at hcall
  exact h call hcall

theorem CallsOnEndsOf.append {later : Unit → Opening α} (h : o.CallsOnEndsOf t)
    (hlater : (later ()).CallsOnEndsOf t) : (o.append later).CallsOnEndsOf t := by
  intro call hcall
  rw [allCalls, Opening.append, List.mem_append] at hcall
  rcases hcall with hcall | hcall
  · exact h call (List.mem_append_left _ hcall)
  · rcases List.mem_append.mp (Alternatives.allCalls_append_subset _ _ hcall) with hcall | hcall
    · exact h call (List.mem_append_right _ hcall)
    · exact hlater call hcall

theorem CallsOnEndsOf.bind {f : Alternative α → Opening β} (h : o.CallsOnEndsOf t)
    (hrest : o.listing.LeavesEndOf t) (hf : ∀ a, (f a).CallsOnEndsOf a.rest) :
    (o.bind f).CallsOnEndsOf t := by
  intro call hcall
  rw [allCalls, Opening.bind, List.mem_append] at hcall
  rcases hcall with hcall | hcall
  · exact h call (List.mem_append_left _ hcall)
  · rcases Alternatives.mem_allCalls_bind hcall with hcall | ⟨a, ha, hcall⟩
    · exact h call (List.mem_append_right _ hcall)
    · exact (hf a call hcall).trans (hrest a ha)

end Opening

namespace Parser

open Backtrack.Opening

variable {α : Type} {p : Parser α}

theorem callsOnEndsOf_stop (b : Bounds) (count : ℕ) (values : List α) (t u : Text) :
    (if b.min ≤ count then Opening.single values u else .empty).CallsOnEndsOf t := by
  split
  · exact callsOnEndsOf_single values u
  · exact callsOnEndsOf_empty

theorem callsOnEndsOf_repeatFrom (hp : ∀ t, (p t).CallsOnEndsOf t)
    (hrest : ∀ t, (p t).listing.LeavesEndOf t) (b : Bounds) (count : ℕ) (t : Text) :
    (p.repeatFrom b count t).CallsOnEndsOf t := by
  induction hn : t.length using Nat.strong_induction_on generalizing count t with
  | _ n ih =>
      have hstop := callsOnEndsOf_stop b count ([] : List α) t t
      unfold repeatFrom
      dsimp only
      split
      · exact hstop
      · refine ((hp t).bind (hrest t) fun a => ?_).append hstop
        split
        · rename_i hlt
          exact (ih _ (hn ▸ hlt) (count + 1) a.rest rfl).map _
        · exact callsOnEndsOf_stop b (count + 1) [a.value] a.rest a.rest

theorem callsOnEndsOf_choice {ps : List (Parser α)} {t : Text}
    (h : ∀ p ∈ ps, (p t).CallsOnEndsOf t) : (choice ps t).CallsOnEndsOf t := by
  induction ps with
  | nil => exact callsOnEndsOf_empty
  | cons p ps ih =>
      have hps := ih fun q hq => h q (List.mem_cons_of_mem p hq)
      have happend : ((p t).append fun _ => choice ps t).CallsOnEndsOf t :=
        (h p List.mem_cons_self).append hps
      intro call hcall
      -- What opening `p` calls, a choice calls on the first pull.
      apply happend call
      change call ∈ ((_ : Alternatives α).after (p t).calls).allCalls at hcall
      rwa [Alternatives.allCalls_after] at hcall

theorem callsOnEndsOf_sequence {ps : List (Parser α)}
    (h : ∀ p ∈ ps, ∀ t, (p t).CallsOnEndsOf t) (hrest : ∀ p ∈ ps, ∀ t, (p t).listing.LeavesEndOf t)
    (t : Text) : (sequence ps t).CallsOnEndsOf t := by
  induction ps generalizing t with
  | nil => exact callsOnEndsOf_single [] t
  | cons p ps ih =>
      refine (h p List.mem_cons_self t).bind (hrest p List.mem_cons_self t) fun a => ?_
      exact (ih (fun q hq => h q (List.mem_cons_of_mem p hq))
        (fun q hq => hrest q (List.mem_cons_of_mem p hq)) a.rest).map _

end Parser

namespace Grammar

open Backtrack.Opening

variable {parsers : String → Parser Value}

theorem leavesEndOf_parse (h : ∀ name t, (parsers name t).listing.LeavesEndOf t) (g : Grammar)
    (t : Text) : (g.parser parsers t).listing.LeavesEndOf t := by
  rw [listing_parse (fun _ _ => rfl) g t]
  exact leavesEndOf_eager h g t

theorem callsOnEndsOf_parse (hrest : ∀ name t, (parsers name t).listing.LeavesEndOf t)
    (h : ∀ name t, (parsers name t).CallsOnEndsOf t) (g : Grammar) (t : Text) :
    (g.parser parsers t).CallsOnEndsOf t := by
  have hleaves := leavesEndOf_parse hrest
  induction g generalizing t with
  | any =>
      cases t with
      | nil => exact callsOnEndsOf_empty.map _
      | cons c t => exact (callsOnEndsOf_single c t).map _
  | satisfy accepts =>
      cases t with
      | nil => exact callsOnEndsOf_empty.map _
      | cons c t =>
          refine CallsOnEndsOf.map ?_ _
          rw [Parser.satisfy]
          split
          · exact callsOnEndsOf_single c t
          · exact callsOnEndsOf_empty
  | literal s =>
      refine CallsOnEndsOf.map ?_ _
      rw [Parser.literal]
      split
      · exact callsOnEndsOf_single s _
      · exact callsOnEndsOf_empty
  | succeed v => exact callsOnEndsOf_single v t
  | fail => exact callsOnEndsOf_empty
  | endOfInput =>
      cases t with
      | nil => exact (callsOnEndsOf_single () []).map _
      | cons c t => exact callsOnEndsOf_empty.map _
  | bind p f ihp ihf => exact (ihp t).bind (hleaves p t) fun a => ihf a.value a.rest
  | and p q ihp ihq =>
      exact ((ihp t).bind (hleaves p t) fun a => (ihq a.rest).map _).map _
  | or p q ihp ihq => exact (ihp t).append (ihq t)
  | choice ps ih =>
      rw [parser, parsers_eq_map]
      exact Parser.callsOnEndsOf_choice (List.forall_mem_map.mpr fun p hp => ih p hp t)
  | sequence ps ih =>
      rw [parser, parsers_eq_map]
      exact (Parser.callsOnEndsOf_sequence (List.forall_mem_map.mpr ih)
        (List.forall_mem_map.mpr fun p _ => hleaves p) t).map _
  | map p f ih => exact (ih t).map f
  | repeated p b ih => exact (Parser.callsOnEndsOf_repeatFrom ih (hleaves p) b 0 t).map _
  | optional p ih => exact (((ih t).map _).append (callsOnEndsOf_single none t)).map _
  | delayed p ih => exact ih t
  | rule name => exact h name t
  | probe label p ih => exact List.forall_mem_cons.mpr ⟨List.suffix_refl t, ih t⟩

end Grammar

namespace Rules

theorem leavesEndOf_parse (rules : Rules) (budget : ℕ) (name : String) (t : Text) :
    (rules.parser budget name t).listing.LeavesEndOf t := by
  rw [rules.listing_parse]
  exact rules.leavesEndOf_eager budget name t

theorem callsOnEndsOf_parse (rules : Rules) (budget : ℕ) (name : String) (t : Text) :
    (rules.parser budget name t).CallsOnEndsOf t := by
  induction budget generalizing name t with
  | zero => exact Opening.callsOnEndsOf_cut
  | succ budget ih =>
      exact Grammar.callsOnEndsOf_parse (rules.leavesEndOf_parse budget) ih (rules.get name) t

end Rules

/-! ### Bytes of the rest -/

theorem Alternative.consumed_add {α : Type} {a : Alternative α} {t : Text} (h : a.rest <:+ t) :
    a.consumed t + a.rest.byteLength = t.byteLength :=
  Nat.sub_add_cancel (Text.byteLength_le_of_suffix h)

/-- The bytes that an alternative took end between two characters. -/
theorem Alternative.takeBytes_consumed {α : Type} {a : Alternative α} {t : Text}
    (h : a.rest <:+ t) : t.takeBytes (a.consumed t) ++ a.rest = t := by
  obtain ⟨taken, htaken, hlength⟩ := a.exists_append_eq_of_suffix h
  rw [← hlength, ← htaken, Text.takeBytes_append]

theorem Location.offset_locate_zero (t : Text) : (locate t 0).offset = 0 :=
  Nat.le_zero.mp (Text.byteLength_takeBytes_le 0 t)

theorem Location.offset_ofRest_add {r t : Text} (h : r <:+ t) :
    (Location.ofRest t r).offset + r.byteLength = t.byteLength := by
  obtain ⟨taken, rfl⟩ := h
  rw [ofRest, locate, Text.byteLength_append, Nat.add_sub_cancel_right, Text.takeBytes_append]

/-- Two ends of one text that have equally many bytes are equal. -/
theorem Text.eq_of_suffix_of_byteLength_eq {r s t : Text} (hr : r <:+ t) (hs : s <:+ t)
    (h : r.byteLength = s.byteLength) : r = s := by
  rcases List.suffix_or_suffix_of_suffix hr hs with hrs | hsr
  · have hlength := (byteLength_lt_iff_of_suffix hrs).not
    exact hrs.eq_of_length (by have := hrs.length_le; omega)
  · have hlength := (byteLength_lt_iff_of_suffix hsr).not
    exact (hsr.eq_of_length (by have := hsr.length_le; omega)).symm

namespace Grammar

variable (g : Grammar) (rules : Rules) (budget : ℕ) (t : Text)

theorem leavesEndOf_within : (g.within rules budget t).listing.LeavesEndOf t :=
  leavesEndOf_parse (rules.leavesEndOf_parse budget) g t

theorem callsOnEndsOf_within : (g.within rules budget t).CallsOnEndsOf t :=
  callsOnEndsOf_parse (rules.leavesEndOf_parse budget) (rules.callsOnEndsOf_parse budget) g t

/-- **The suffix invariant.** However often a grammar over rules is pulled, every alternative
leaves over an end of the input, behind a whole number of characters; every call of a labelled
grammar, wherever it stands, is on an end of the input; and two rests of equally many bytes are
equal. So the bytes of a rest can be taken from those of the input, for an alternative and in a
run, where an error is located at the start of the input or where an alternative stopped. -/
theorem touches_only_ends (g : Grammar) (rules : Rules) (budget : ℕ) (t : Text) :
    let opened := g.within rules budget t
    (∀ k, ∀ a ∈ (opened.pull k).alternatives,
      a.rest <:+ t ∧ t.takeBytes (a.consumed t) ++ a.rest = t ∧
        a.consumed t + a.rest.byteLength = t.byteLength) ∧
    (∀ k, ∀ call ∈ (opened.pull k).calls, call.text <:+ t) ∧
    (∀ k, ∀ a ∈ (opened.pull k).alternatives, ∀ b ∈ (opened.pull k).alternatives,
      a.rest.byteLength = b.rest.byteLength → a.rest = b.rest) ∧
    ∀ o e, ((g.within rules budget).run o t).result = some (.error e) →
      e.location.offset = 0 ∨
        ∃ a ∈ (opened.alternatives ()).toList, e.location = .ofRest t a.rest ∧
          e.location.offset + a.rest.byteLength = t.byteLength := by
  intro opened
  have hleaves : opened.listing.LeavesEndOf t := g.leavesEndOf_within rules budget t
  have hpulled : ∀ k, ∀ a ∈ (opened.pull k).alternatives, a.rest <:+ t := by
    intro k a ha
    rw [Opening.pull, Alternatives.alternatives_pull] at ha
    exact hleaves a (List.mem_of_mem_take ha)
  refine ⟨fun k a ha => ?_, fun k call hcall => ?_, fun k a ha b hb h => ?_, fun o e h => ?_⟩
  · have hsuffix := hpulled k a ha
    exact ⟨hsuffix, a.takeBytes_consumed hsuffix, a.consumed_add hsuffix⟩
  · refine g.callsOnEndsOf_within rules budget t call ?_
    exact List.append_subset.mpr ⟨List.subset_append_left _ _, List.Subset.trans
      (Alternatives.calls_pull_subset k _) (List.subset_append_right _ _)⟩ hcall
  · exact Text.eq_of_suffix_of_byteLength_eq (hpulled k a ha) (hpulled k b hb) h
  · have hrests := Alternatives.location_of_select_error
      (Q := fun r => ∃ a ∈ (opened.alternatives ()).toList, a.rest = r)
      (fun r hr => absurd hr (Option.not_mem_none r)) (fun a ha => ⟨a, ha, rfl⟩) h
    rcases hrests with hstart | ⟨_, ⟨a, ha, rfl⟩, hlocation⟩
    · rw [hstart]
      exact .inl (Location.offset_locate_zero t)
    · rw [hlocation]
      exact .inr ⟨a, ha, rfl, Location.offset_ofRest_add (hleaves a ha)⟩

/-- The labelled letter takes two bytes, and is tried again on what it leaves over. -/
theorem touches_only_ends_accent :
    let rules : Rules :=
      [("es", .or (.and (.probe "e" (.literal ['é'])) (.rule "es")) (.succeed .unit))]
    let g : Grammar := .or (.rule "es") (.literal ['é'])
    let t : Text := ['é', 'a']
    let opened := g.within rules 3 t
    let a : Alternative Value := ⟨.pair (.text ['é']) .unit, ['a']⟩
    let b : Alternative Value := ⟨.text ['é'], ['a']⟩
    let e : ParseError := .incomplete ⟨2, 1, 2⟩ ['a']
    (a ∈ (opened.pull 3).alternatives ∧ a.rest <:+ t ∧ t.takeBytes (a.consumed t) ++ a.rest = t ∧
      a.consumed t + a.rest.byteLength = t.byteLength) ∧
    (⟨"e", ['a']⟩ ∈ (opened.pull 3).calls ∧ ['a'] <:+ t) ∧
    (b ∈ (opened.pull 3).alternatives ∧ a.rest.byteLength = b.rest.byteLength ∧
      a.rest = b.rest) ∧
    ((g.within rules 3).run {} t).result = some (.error e) ∧
      (e.location.offset = 0 ∨
        ∃ a ∈ (opened.alternatives ()).toList, e.location = .ofRest t a.rest ∧
          e.location.offset + a.rest.byteLength = t.byteLength) := by
  intro rules g t opened a b e
  have hpull : (opened.pull 3).alternatives = [a, ⟨.unit, t⟩, b] := rfl
  have ha : a ∈ (opened.pull 3).alternatives := by simp [hpull]
  have hb : b ∈ (opened.pull 3).alternatives := by simp [hpull]
  have hcalls : (opened.pull 3).calls = [⟨"e", t⟩, ⟨"e", ['a']⟩] := rfl
  have hcall : ⟨"e", ['a']⟩ ∈ (opened.pull 3).calls := by simp [hcalls]
  have hrun : ((g.within rules 3).run {} t).result = some (.error e) := rfl
  obtain ⟨hrests, htexts, hequal, herrors⟩ := touches_only_ends g rules 3 t
  exact ⟨⟨ha, hrests 3 a ha⟩, ⟨hcall, htexts 3 _ hcall⟩, ⟨hb, rfl, hequal 3 a ha b hb rfl⟩, hrun,
    herrors {} e hrun⟩

end Grammar

end Backtrack
