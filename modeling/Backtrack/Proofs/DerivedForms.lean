import Backtrack.Proofs.Unfolding

/-!
Forms that stand for others. To read two parts and keep both values, to transform values, to read
parts in a row or between brackets: all of these can be written with `bind`, `map` and `succeed`.
Choice among the members of a list can be written with `or`, except that a choice opens its first
member no earlier than it is asked for an alternative.

The equations are between sequences that record their calls, as the laws of sequencing are. They
bring a parser that is put together from several forms into one shape: what comes first is bound
to what comes next, and the last part is mapped.
-/

namespace Backtrack

namespace Alternatives

variable {α β γ : Type}

/-- To transform values is to continue each alternative with a value that is given at once. -/
theorem map_eq_bind (f : α → β) (s : Alternatives α) :
    map f s = bind (fun a => .single (f a.value) a.rest) s := by
  induction s with
  | exhausted c => rfl
  | cutOff c => rfl
  | next c a tail ih =>
      rw [bind_next, map, ih ()]
      simp [Opening.single, Alternative.map]

theorem bind_map (f : α → β) (g : Alternative β → Opening γ) (s : Alternatives α) :
    bind g (map f s) = bind (fun a => g (a.map f)) s := by
  induction s with
  | exhausted c => rfl
  | cutOff c => rfl
  | next c a tail ih => rw [map, bind_next, bind_next, ih ()]

end Alternatives

namespace Opening

variable {α : Type} (o : Opening α)

/-- The same sequence, but its first pull opens it. -/
def postponed : Opening α := ⟨[], fun _ => (o.alternatives ()).after o.calls⟩

theorem listing_postponed : o.postponed.listing = o.listing := Alternatives.listing_after _ _

/-- As soon as there has been a pull, it does not show when a sequence was opened. -/
theorem pull_postponed (k : ℕ) : o.postponed.pull (k + 1) = o.pull (k + 1) := by
  rw [pull, pull, postponed, Alternatives.pull_after, List.nil_append]

theorem drain_postponed : o.postponed.drain = o.drain := by
  have hlist : (o.postponed.alternatives ()).toList = (o.alternatives ()).toList :=
    Alternatives.toList_after _ _
  rw [drain, drain, hlist, pull_postponed]

/-- What comes second is opened by the pull that asks it for an alternative anyway. -/
theorem append_postponed (later : Opening α) :
    (o.append fun _ => later.postponed) = o.append fun _ => later := by
  have happend : ∀ s : Alternatives α,
      s.append (fun _ => later.postponed) = s.append fun _ => later := by
    intro s
    induction s with
    | exhausted c => simp [postponed]
    | cutOff c => rfl
    | next c a tail ih => simp only [Alternatives.append_next, ih ()]
  simp only [append, happend]

end Opening

namespace Parser

variable {α β γ : Type}

/-! ### One shape for all forms -/

theorem and_eq_bind (p : Parser α) (q : Parser β) : p.and q = p.bind fun v => q.map (v, ·) := rfl

theorem map_eq_bind (p : Parser α) (f : α → β) : p.map f = p.bind fun v => succeed (f v) := by
  funext t
  simp only [map, Opening.map, Alternatives.map_eq_bind]
  rfl

theorem map_map (p : Parser α) (f : α → β) (g : β → γ) :
    (p.map f).map g = p.map fun v => g (f v) := by
  funext t
  simp only [map, Opening.map, Alternatives.map_map]

theorem map_bind (p : Parser α) (f : α → Parser β) (g : β → γ) :
    (p.bind f).map g = p.bind fun v => (f v).map g := by
  funext t
  simp only [map, bind, Opening.map, Opening.bind, Alternatives.map_bind]

theorem bind_bind (p : Parser α) (f : α → Parser β) (g : β → Parser γ) :
    (p.bind f).bind g = p.bind fun v => (f v).bind g := by
  funext t
  simp only [bind, Opening.bind, Alternatives.bind_bind]

theorem bind_map (p : Parser α) (f : α → β) (g : β → Parser γ) :
    (p.map f).bind g = p.bind fun v => g (f v) := by
  funext t
  simp only [map, bind, Opening.map, Opening.bind, Alternatives.bind_map]
  rfl

theorem or_bind (p q : Parser α) (f : α → Parser β) :
    (p.or q).bind f = (p.bind f).or (q.bind f) := by
  funext t
  simp only [bind, or, Opening.bind, Opening.append, Alternatives.bind_append]

/-- In second place, a value that is given at once may be replaced by what follows it. -/
theorem or_bind_succeed (p : Parser β) (v : α) (f : α → Parser β) :
    p.or ((succeed v).bind f) = p.or (f v) := by
  funext t
  rw [or, or, bind_succeed]
  exact Opening.append_postponed (p t) (f v t)

theorem parser_surroundedBy (parsers : String → Parser Value) (content before after : Grammar) :
    (Grammar.surroundedBy content before after).parser parsers =
      ((before.parser parsers).and
        ((content.parser parsers).and (after.parser parsers))).map fun v => v.2.1 := by
  simp only [Grammar.surroundedBy, Grammar.parser, and_eq_bind, map_bind, map_map]
  rfl

/-! ### Lists of parsers -/

theorem sequence_eq_foldr (ps : List (Parser α)) :
    sequence ps = ps.foldr (fun p later => (p.and later).map fun v => v.1 :: v.2) (succeed []) := by
  induction ps with
  | nil => rfl
  | cons p ps ih =>
      rw [List.foldr_cons, ← ih]
      funext t
      exact sequence_cons ps

theorem choice_eq_postponed (ps : List (Parser α)) (t : Text) :
    choice ps t = (ps.foldr or fail t).postponed := by
  induction ps with
  | nil => rfl
  | cons p ps ih =>
      calc
        choice (p :: ps) t = ((p t).append fun _ => choice ps t).postponed := rfl
        _ = ((p t).append fun _ => (ps.foldr or fail t).postponed).postponed := by rw [ih]
        _ = ((p t).append fun _ => ps.foldr or fail t).postponed := by
          rw [Opening.append_postponed]

/-- **Derived forms are what they stand for.** Two parts in a row, transformed values, a list of
parts in a row, and a part between two others are put together from `bind`, `succeed` and `and`;
both sides give the same alternatives and make the same calls, at the opening and at every pull. A
choice among the members of a list gives the alternatives of the members joined by `or`, in the same
order; it calls nothing when it is opened, and as soon as there has been a pull it has made the same
calls, so also when it is drained. -/
theorem derived_forms (p : Parser α) (q : Parser β) (f : α → β) (ps : List (Parser α))
    (parsers : String → Parser Value) (content before after : Grammar) :
    (p.and q = p.bind fun v => q.map fun w => (v, w)) ∧
    (p.map f = p.bind fun v => succeed (f v)) ∧
    sequence ps = ps.foldr (fun p later => (p.and later).map fun v => v.1 :: v.2) (succeed []) ∧
    (Grammar.surroundedBy content before after).parser parsers =
      ((before.parser parsers).and
        ((content.parser parsers).and (after.parser parsers))).map (fun v => v.2.1) ∧
    ∀ t, (choice ps t).calls = [] ∧
      (choice ps t).listing = (ps.foldr or fail t).listing ∧
      (choice ps t).drain = (ps.foldr or fail t).drain ∧
      ∀ k, (choice ps t).pull (k + 1) = (ps.foldr or fail t).pull (k + 1) := by
  refine ⟨and_eq_bind p q, map_eq_bind p f, sequence_eq_foldr ps,
    parser_surroundedBy parsers content before after, fun t => ?_⟩
  rw [choice_eq_postponed]
  exact ⟨rfl, Opening.listing_postponed _, Opening.drain_postponed _, Opening.pull_postponed _⟩

end Parser

end Backtrack
