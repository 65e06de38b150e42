import Backtrack.Proofs.Calls
import Backtrack.Proofs.Points

/-!
Runs without a value. An error tells at which alternative the run gave up and how far the
alternatives before it got: with no limit in the way the input falls into what the best of them took
and what it left over. A greater limit changes nothing about a run that did not come to its limit,
and a run that did come to it only gets further.
-/

namespace Backtrack

/-! ### The greatest number of bytes that were taken -/

section MostConsumed

variable {α : Type} {input : Text} {as bs : List (Alternative α)}

open Alternatives

theorem exists_mostConsumed_eq (input : Text) (h : as ≠ []) :
    ∃ a ∈ as, mostConsumed input as = a.consumed input := by
  obtain ⟨a, ha, -, hleast⟩ := exists_furthestOf_eq h
  exact ⟨a, ha, mostConsumed_eq input ha hleast⟩

theorem consumed_le_mostConsumed (input : Text) {a : Alternative α} (ha : a ∈ as) :
    a.consumed input ≤ mostConsumed input as := by
  obtain ⟨b, hb, -, hleast⟩ := exists_furthestOf_eq (List.ne_nil_of_mem ha)
  rw [mostConsumed_eq input hb hleast]
  exact Nat.sub_le_sub_left (hleast a ha) _

theorem mostConsumed_mono (input : Text) (h : as ⊆ bs) :
    mostConsumed input as ≤ mostConsumed input bs := by
  rcases eq_or_ne as [] with rfl | hne
  · exact Nat.zero_le _
  · obtain ⟨a, ha, hmost⟩ := exists_mostConsumed_eq input hne
    rw [hmost]
    exact consumed_le_mostConsumed input (h ha)

theorem isBoundary_mostConsumed (h : ∀ a ∈ as, a.rest <:+ input) :
    input.IsBoundary (mostConsumed input as) := by
  rcases eq_or_ne as [] with rfl | hne
  · exact ⟨[], List.nil_prefix, rfl⟩
  · obtain ⟨a, ha, hmost⟩ := exists_mostConsumed_eq input hne
    obtain ⟨taken, htaken, hlength⟩ := a.exists_append_eq_of_suffix (h a ha)
    exact ⟨taken, ⟨a.rest, htaken⟩, hlength.trans hmost.symm⟩

end MostConsumed

namespace Alternatives

/-! ### Where a run gives up -/

section Select

variable {α : Type} {input : Text} {o o' : Options} {examined : ℕ} {furthest : Option Text}
  {earlier : List Call} {s : Alternatives α}

/-- A limit that is not reached may as well be greater. -/
theorem select_eq_of_not_limitReached (hcomplete : o'.requireComplete = o.requireComplete)
    (hallows : ∀ n, o.Allows n → o'.Allows n)
    (h : ∀ limit l, (select input o examined furthest earlier s).result ≠
      some (.error (.limitReached limit l))) :
    select input o' examined furthest earlier s = select input o examined furthest earlier s := by
  induction s generalizing examined furthest earlier with
  | exhausted c => rw [select_exhausted, select_exhausted]
  | cutOff c => rfl
  | next c a tail ih =>
      have haccepts : o'.accepts a = o.accepts a := by rw [Options.accepts, hcomplete]; rfl
      rcases o.examine_cases examined a with ⟨hn, ha⟩ | ⟨hn, ha⟩ | ⟨limit, hlimit, hle⟩
      · rw [select_of_accepts hn ha, select_of_accepts (hallows _ hn) (haccepts ▸ ha)]
      · rw [select_of_not_accepts hn ha] at h ⊢
        rw [select_of_not_accepts (hallows _ hn) (haccepts ▸ ha)]
        exact ih () h
      · rw [select_of_limit hlimit hle] at h
        exact absurd rfl (h limit _)

end Select

end Alternatives

namespace Parser

open Backtrack.Alternatives

variable {α : Type} {p : Parser α} {o : Options} {input : Text}

/-- How a run comes to an error. There are no alternatives; or there are some and none of them is
acceptable, and the error is located where one that leaves least ends; or there are more than the
limit, and the error is located where the furthest within the limit ends. -/
inductive GivesUp (p : Parser α) (o : Options) (input : Text) : ParseError → Prop
  | noParse (hends : ((p input).alternatives ()).ends)
      (hnone : ((p input).alternatives ()).toList = []) :
      GivesUp p o input (.noParse (.locate input 0))
  | incomplete {a : Alternative α} (hends : ((p input).alternatives ()).ends)
      (hnone : ∀ b ∈ ((p input).alternatives ()).toList, ¬o.accepts b)
      (ha : a ∈ ((p input).alternatives ()).toList)
      (hleast : ∀ b ∈ ((p input).alternatives ()).toList, a.rest.byteLength ≤ b.rest.byteLength) :
      GivesUp p o input (.incomplete
        (.locate input (mostConsumed input ((p input).alternatives ()).toList)) a.rest)
  | limitReached {limit : UInt64} (hlimit : limit ∈ o.maxAlternatives)
      (hlt : limit.toNat < ((p input).alternatives ()).toList.length) :
      GivesUp p o input (.limitReached limit
        (.locate input (mostConsumed input (((p input).alternatives ()).toList.take limit.toNat))))

theorem givesUp {e : ParseError} (h : (p.run o input).result = some (.error e)) :
    p.GivesUp o input e := by
  rcases select_error_cases h with ⟨hends, hnone, rfl⟩ | ⟨limit, hlimit, hlt, rfl⟩
  · rcases eq_or_ne ((p input).alternatives ()).toList [] with hempty | hne
    · rw [hempty]
      exact .noParse hends hempty
    · obtain ⟨a, ha, hfurthest, hleast⟩ := exists_furthestOf_eq hne
      have hlocation : Location.ofRest input a.rest =
          .locate input (mostConsumed input ((p input).alternatives ()).toList) := by
        rw [mostConsumed_eq input ha hleast]
        rfl
      rw [hfurthest, endError, hlocation]
      exact .incomplete hends hnone ha hleast
  · rw [Nat.sub_zero] at hlt ⊢
    rw [pointOf_furthestOf]
    exact .limitReached hlimit hlt

/-- **A limit only delays the answer.** Let one run have a limit that is no greater than that of
another run of the same parser, if this has one at all. If the limit is not reached, both runs are
the same: they have one result, for which they pull as many alternatives and make the same calls.
If it is reached, the other run, as far as it comes to an end, finds a value, or it comes to an
error that is located no earlier, and is not that there is no parse. -/
theorem limit_only_delays (p : Parser α) (input : Text) (complete : Bool)
    {limit limit' : Option UInt64} (hle : ∀ n' ∈ limit', ∃ n ∈ limit, n ≤ n') :
    let early := p.run ⟨complete, limit⟩ input
    let late := p.run ⟨complete, limit'⟩ input
    ((∀ n l, early.result ≠ some (.error (.limitReached n l))) → late = early) ∧
    ∀ n l, early.result = some (.error (.limitReached n l)) →
      ∀ res, late.result = some res →
        (∃ v, res = .ok v) ∨
        (∃ n' l', res = .error (.limitReached n' l') ∧ l.offset ≤ l'.offset) ∨
        ∃ l' remaining, res = .error (.incomplete l' remaining) ∧ l.offset ≤ l'.offset := by
  intro early late
  refine ⟨fun h => ?_, fun n l h res hres => ?_⟩
  · refine select_eq_of_not_limitReached (o := ⟨complete, limit⟩) rfl (fun m hm n' hn' => ?_) h
    obtain ⟨n, hn, hnn'⟩ := hle n' hn'
    exact (hm n hn).trans (UInt64.le_iff_toNat_le.mp hnn')
  · rcases res with e | v
    · right
      cases givesUp h with
      | limitReached hn hlt =>
          cases givesUp hres with
          | noParse hends hnone =>
              -- The alternative that reached the early limit is there for the late run as well.
              rw [hnone] at hlt
              exact absurd hlt (Nat.not_lt_zero _)
          | incomplete hends hnone ha hleast =>
              have hmost := mostConsumed_mono input
                (List.take_subset n.toNat ((p input).alternatives ()).toList)
              exact .inr ⟨_, _, rfl, Location.offset_locate_mono input hmost⟩
          | @limitReached n' hn' hlt' =>
              obtain ⟨m, hm, hmn'⟩ := hle n' hn'
              obtain rfl : n = m := Option.mem_unique hn hm
              have hmost := mostConsumed_mono input (List.take_subset_take_left
                ((p input).alternatives ()).toList (UInt64.le_iff_toNat_le.mp hmn'))
              exact .inl ⟨_, _, rfl, Location.offset_locate_mono input hmost⟩
    · exact .inl ⟨v, rfl⟩

/-- Three alternatives that take more and more, of which none is complete. A limit of one is reached
at the start of the text, a limit of two behind one letter. A limit of three is not reached, and is
as good as none. -/
theorem limit_only_delays_aab :
    let p : Parser Text := (literal []).or ((literal ['a']).or (literal ['a', 'a']))
    let t : Text := ['a', 'a', 'b']
    let l : Location := ⟨0, 1, 1⟩
    let l' : Location := ⟨1, 1, 2⟩
    ((∀ n' ∈ some (2 : UInt64), ∃ n ∈ some (1 : UInt64), n ≤ n') ∧
      (p.run ⟨true, some 1⟩ t).result = some (.error (.limitReached 1 l)) ∧
      (p.run ⟨true, some 2⟩ t).result = some (.error (.limitReached 2 l')) ∧
      l.offset ≤ l'.offset) ∧
    (∀ n' ∈ (none : Option UInt64), ∃ n ∈ some (3 : UInt64), n ≤ n') ∧
      (p.run ⟨true, some 3⟩ t).result = some (.error (.incomplete ⟨2, 1, 3⟩ ['b'])) ∧
      p.run ⟨true, none⟩ t = p.run ⟨true, some 3⟩ t := by
  intro p t l l'
  have hone : (p.run ⟨true, some 1⟩ t).result = some (.error (.limitReached 1 l)) := rfl
  have htwo : (p.run ⟨true, some 2⟩ t).result = some (.error (.limitReached 2 l')) := rfl
  have hthree : (p.run ⟨true, some 3⟩ t).result = some (.error (.incomplete ⟨2, 1, 3⟩ ['b'])) := rfl
  have hle : ∀ n' ∈ some (2 : UInt64), ∃ n ∈ some (1 : UInt64), n ≤ n' := by
    intro n' h
    obtain rfl := Option.some.inj h
    exact ⟨1, rfl, by decide⟩
  have hnone : ∀ n' ∈ (none : Option UInt64), ∃ n ∈ some (3 : UInt64), n ≤ n' :=
    fun n' h => absurd h (Option.not_mem_none n')
  refine ⟨⟨hle, hone, htwo, ?_⟩, hnone, hthree, ?_⟩
  · rcases (limit_only_delays p t true hle).2 1 l hone _ htwo with
      ⟨v, hv⟩ | ⟨n', l', he, hoffset⟩ | ⟨l', remaining, he, -⟩
    · cases hv
    · cases he
      exact hoffset
    · cases he
  · refine (limit_only_delays p t true hnone).1 fun n l h => ?_
    cases hthree.symm.trans h

end Parser

namespace Grammar

open Backtrack.Alternatives

/-- **Errors split the input.** However deeply references are followed, an incomplete parse is
located between two characters of the input, and what it says remains is what stands behind them,
and is not nothing; line and column are those that the characters before lead to. All alternatives
have come to an end then; one of them leaves exactly what remains, and none leaves less. When a
limit is reached, the error is located between two characters too, as far from the start as the best
of the alternatives within the limit took the input. -/
theorem errors_split_input (g : Grammar) (rules : Rules) (budget : ℕ) (o : Options) (t : Text) :
    let s := (g.within rules budget t).alternatives ()
    (∀ l remaining,
      ((g.within rules budget).run o t).result = some (.error (.incomplete l remaining)) →
      remaining ≠ [] ∧ t.IsBoundary l.offset ∧
        (∃ taken, taken ++ remaining = t ∧ taken.byteLength = l.offset ∧ l.position = taken.scan) ∧
        s.ends ∧ (∃ a ∈ s.toList, a.rest = remaining) ∧
        ∀ b ∈ s.toList, remaining.byteLength ≤ b.rest.byteLength) ∧
    ∀ limit l,
      ((g.within rules budget).run o t).result = some (.error (.limitReached limit l)) →
      limit ∈ o.maxAlternatives ∧ limit.toNat < s.toList.length ∧
        t.IsBoundary l.offset ∧ l.offset = mostConsumed t (s.toList.take limit.toNat) := by
  intro s
  have hleaves : ∀ a ∈ s.toList, a.rest <:+ t := g.leavesEndOf_within rules budget t
  refine ⟨fun l remaining h => ?_, fun limit l h => ?_⟩
  · cases Parser.givesUp h with
    | @incomplete a hends hnone ha hleast =>
        obtain ⟨taken, htaken, hlength⟩ := a.exists_append_eq_of_suffix (hleaves a ha)
        have hlocation : Location.locate t (mostConsumed t s.toList) =
            .locate (taken ++ a.rest) taken.byteLength := by
          rw [mostConsumed_eq t ha hleast, hlength, htaken]
        have hoffset : (Location.locate t (mostConsumed t s.toList)).offset = taken.byteLength := by
          rw [hlocation, Location.offset_locate_append]
        refine ⟨Options.rest_ne_nil_of_not_accepts (hnone a ha),
          Location.isBoundary_offset_locate t _, ⟨taken, htaken, hoffset.symm, ?_⟩, hends,
          ⟨a, ha, rfl⟩, hleast⟩
        rw [hlocation, Location.position_locate_append]
  · cases Parser.givesUp h with
    | limitReached hlimit hlt =>
        have hboundary := isBoundary_mostConsumed fun a ha =>
          hleaves a (List.mem_of_mem_take (i := limit.toNat) ha)
        rw [Location.offset_locate hboundary]
        exact ⟨hlimit, hlt, hboundary, rfl⟩

/-- An accented letter of two bytes, alone or with the letter behind it. With a limit of one only
the accented letter is taken; without a limit both are, and the last letter remains. -/
theorem errors_split_input_accent :
    let g : Grammar := .or (.literal ['é']) (.literal ['é', 'a'])
    let t : Text := ['é', 'a', 'b']
    let l : Location := ⟨3, 1, 3⟩
    let l' : Location := ⟨2, 1, 2⟩
    (((g.within [] 0).run {} t).result = some (.error (.incomplete l ['b'])) ∧
      t.IsBoundary l.offset ∧
      ∃ taken : Text, taken ++ ['b'] = t ∧ taken.byteLength = l.offset ∧
        l.position = taken.scan) ∧
    ((g.within [] 0).run ⟨true, some 1⟩ t).result = some (.error (.limitReached 1 l')) ∧
      t.IsBoundary l'.offset := by
  intro g t l l'
  have hend : ((g.within [] 0).run {} t).result = some (.error (.incomplete l ['b'])) := rfl
  have hlimit : ((g.within [] 0).run ⟨true, some 1⟩ t).result =
      some (.error (.limitReached 1 l')) := rfl
  obtain ⟨-, hboundary, htaken, -⟩ := (errors_split_input g [] 0 {} t).1 l ['b'] hend
  obtain ⟨-, -, hboundary', -⟩ := (errors_split_input g [] 0 ⟨true, some 1⟩ t).2 1 l' hlimit
  exact ⟨⟨hend, hboundary, htaken⟩, hlimit, hboundary'⟩

end Grammar

end Backtrack
