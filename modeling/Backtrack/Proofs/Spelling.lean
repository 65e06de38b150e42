import Backtrack.Grammar.Classes
import Backtrack.Grammar.Continuation
import Backtrack.Proofs.Eager

/-!
Nothing is lost, duplicated or reordered in values. If a grammar joins values without dropping a
part of them and transforms them without touching their texts, then every value spells what was
taken: its texts from left to right, followed by the rest, are the input.
-/

namespace Backtrack

namespace Listing

variable {α β : Type} {spell : α → Text} {spell' : β → Text} {l m : Listing α} {t u : Text}

/-- Every alternative spells the text `t`: its value what it took, and then its rest. -/
def Spells (spell : α → Text) (l : Listing α) (t : Text) : Prop :=
  ∀ a ∈ l.items, spell a.value ++ a.rest = t

theorem spells_empty : (empty : Listing α).Spells spell t :=
  fun _ h => absurd h List.not_mem_nil

theorem spells_bot : (⊥ : Listing α).Spells spell t :=
  fun _ h => absurd h List.not_mem_nil

theorem spells_single {v : α} (h : spell v ++ u = t) : (single v u).Spells spell t := by
  intro a ha
  rw [List.mem_singleton.mp ha]
  exact h

theorem Spells.append (hl : l.Spells spell t) (hm : m.Spells spell t) :
    (l.append m).Spells spell t := by
  intro a ha
  rcases mem_append ha with ha | ha
  · exact hl a ha
  · exact hm a ha

theorem Spells.map (h : l.Spells spell u) {f : α → β} (s : Text)
    (hf : ∀ v, spell' (f v) = s ++ spell v) : (l.map f).Spells spell' (s ++ u) := by
  intro b hb
  obtain ⟨a, ha, rfl⟩ := List.mem_map.mp hb
  rw [Alternative.map, hf, List.append_assoc, h a ha]

/-- A branch has to spell the whole text, of which its alternative `a` spells the front. -/
theorem Spells.flatMap {f : Alternative α → Listing β} (hl : l.Spells spell t)
    (hf : ∀ a, (f a).Spells spell' (spell a.value ++ a.rest)) :
    (l.flatMap f).Spells spell' t := by
  intro b hb
  obtain ⟨a, ha, hb⟩ := mem_flatMap hb
  rw [← hl a ha]
  exact hf a b hb

theorem spells_repeatFrom {p : Text → Listing Value} (h : ∀ t, (p t).Spells Value.toText t)
    (b : Bounds) (count : ℕ) (t : Text) :
    (repeatFrom p b count t).Spells Value.toText.itemsText t := by
  induction hn : t.length using Nat.strong_induction_on generalizing count t with
  | _ n ih =>
      have hstop : (if b.min ≤ count then Listing.single [] t else .empty).Spells
          Value.toText.itemsText t := by
        split
        · exact spells_single rfl
        · exact spells_empty
      unfold repeatFrom
      dsimp only
      split
      · exact hstop
      · refine ((h t).flatMap fun a => ?_).append hstop
        split
        · rename_i hlt
          exact (ih _ (hn ▸ hlt) (count + 1) a.rest rfl).map _ fun _ => rfl
        · split
          · exact spells_single (by simp [Value.toText.itemsText])
          · exact spells_empty

end Listing

namespace Grammar

/-- The grammar keeps the texts of its parts: values are joined by pairs, lists and options, and
transformed only in ways that leave their texts alone, such as the identity and `asText`. -/
inductive KeepsTexts : Grammar → Prop
  | any : KeepsTexts any
  | satisfy (accepts : Char → Bool) : KeepsTexts (satisfy accepts)
  | literal (s : Text) : KeepsTexts (literal s)
  | fail : KeepsTexts fail
  | endOfInput : KeepsTexts endOfInput
  | bind {p : Grammar} {f : Value → Grammar} (hp : KeepsTexts p) (hf : ∀ v, KeepsTexts (f v)) :
      KeepsTexts (bind p fun v => keeping (f v) v)
  | and {p q : Grammar} (hp : KeepsTexts p) (hq : KeepsTexts q) : KeepsTexts (and p q)
  | or {p q : Grammar} (hp : KeepsTexts p) (hq : KeepsTexts q) : KeepsTexts (or p q)
  | choice {ps : List Grammar} (h : ∀ p ∈ ps, KeepsTexts p) : KeepsTexts (choice ps)
  | sequence {ps : List Grammar} (h : ∀ p ∈ ps, KeepsTexts p) : KeepsTexts (sequence ps)
  | map {p : Grammar} {f : Value → Value} (hp : KeepsTexts p)
      (hf : ∀ v, (f v).toText = v.toText) : KeepsTexts (map p f)
  | repeated {p : Grammar} (b : Bounds) (hp : KeepsTexts p) : KeepsTexts (repeated p b)
  | optional {p : Grammar} (hp : KeepsTexts p) : KeepsTexts (optional p)
  | delayed {p : Unit → Grammar} (hp : KeepsTexts (p ())) : KeepsTexts (delayed p)
  | rule (name : String) : KeepsTexts (rule name)
  | probe {label : String} {p : Grammar} (hp : KeepsTexts p) : KeepsTexts (probe label p)

namespace KeepsTexts

variable {p : Grammar}

theorem asText (hp : KeepsTexts p) : KeepsTexts (.map p asText) := .map hp fun _ => rfl

theorem identity (hp : KeepsTexts p) : KeepsTexts (.map p id) := .map hp fun _ => rfl

theorem many (hp : KeepsTexts p) : KeepsTexts (many p) := .repeated _ hp

theorem many1 (hp : KeepsTexts p) : KeepsTexts (many1 p) := .repeated _ hp

theorem alpha : KeepsTexts alpha := .or (.satisfy _) (.satisfy _)

theorem alphanumeric : KeepsTexts alphanumeric := .or alpha (.satisfy _)

theorem name : KeepsTexts name := alpha.many1.asText

theorem line : KeepsTexts line := (KeepsTexts.and (KeepsTexts.satisfy _).many (.satisfy _)).asText

end KeepsTexts

variable {lists : String → Text → Listing Value}

theorem spells_sequence {ps : List Grammar}
    (h : ∀ p ∈ ps, ∀ t, (p.eager lists t).Spells Value.toText t) (t : Text) :
    (eager.eagerSequence lists ps t).Spells Value.toText.itemsText t := by
  induction ps generalizing t with
  | nil => exact Listing.spells_single rfl
  | cons p ps ih =>
      refine (h p List.mem_cons_self t).flatMap fun a => ?_
      exact (ih (fun q hq => h q (List.mem_cons_of_mem p hq)) a.rest).map _ fun _ => rfl

theorem spells_choice {ps : List Grammar} {t : Text}
    (h : ∀ p ∈ ps, (p.eager lists t).Spells Value.toText t) :
    (eager.eagerChoice lists ps t).Spells Value.toText t := by
  induction ps with
  | nil => exact Listing.spells_empty
  | cons p ps ih =>
      exact (h p List.mem_cons_self).append (ih fun q hq => h q (List.mem_cons_of_mem p hq))

/-- A grammar that keeps texts spells the input if the rules do. -/
theorem KeepsTexts.spells_eager {g : Grammar} (hg : g.KeepsTexts)
    (h : ∀ name t, (lists name t).Spells Value.toText t) (t : Text) :
    (g.eager lists t).Spells Value.toText t := by
  induction hg generalizing t with
  | any =>
      cases t with
      | nil => exact Listing.spells_empty
      | cons c t => exact Listing.spells_single rfl
  | satisfy accepts =>
      cases t with
      | nil => exact Listing.spells_empty
      | cons c t =>
          unfold eager
          split
          · exact Listing.spells_single rfl
          · exact Listing.spells_empty
  | literal s =>
      unfold eager
      split
      · rename_i hprefix
        obtain ⟨r, rfl⟩ := hprefix
        rw [List.drop_left]
        exact Listing.spells_single rfl
      · exact Listing.spells_empty
  | fail => exact Listing.spells_empty
  | endOfInput =>
      unfold eager
      split
      · exact Listing.spells_single rfl
      · exact Listing.spells_empty
  | bind _ _ ihp ihf =>
      exact (ihp t).flatMap fun a => (ihf a.value a.rest).map _ fun _ => rfl
  | and _ _ ihp ihq => exact (ihp t).flatMap fun a => (ihq a.rest).map _ fun _ => rfl
  | or _ _ ihp ihq => exact (ihp t).append (ihq t)
  | choice _ ih => exact spells_choice fun p hp => ih p hp t
  | sequence _ ih => exact (spells_sequence ih t).map [] fun _ => rfl
  | map _ hf ih => exact (ih t).map [] hf
  | repeated b _ ih => exact (Listing.spells_repeatFrom ih b 0 t).map [] fun _ => rfl
  | optional _ ih =>
      have hpresent : ((eager lists _ t).map Value.some).Spells Value.toText t :=
        (ih t).map [] fun _ => rfl
      exact hpresent.append (Listing.spells_single rfl)
  | delayed _ ih => exact ih t
  | rule name => exact h name t
  | probe _ ih => exact ih t

end Grammar

theorem Rules.spells_eager {rules : Rules} (h : ∀ name, (rules.get name).KeepsTexts) (budget : ℕ)
    (name : String) (t : Text) : (rules.eager budget name t).Spells Value.toText t := by
  induction budget generalizing name t with
  | zero => exact Listing.spells_bot
  | succ budget ih => exact (h name).spells_eager ih t

namespace Grammar

/-- **Nothing is lost, duplicated or reordered.** If a grammar over rules keeps texts, and so do
the rules, then the texts in the value of each alternative, from left to right, followed by its
rest, are the input. -/
theorem texts_append_rest {g : Grammar} {rules : Rules} (hg : g.KeepsTexts)
    (hrules : ∀ name, (rules.get name).KeepsTexts) (budget : ℕ) (t : Text) :
    ∀ a ∈ ((g.within rules budget t).alternatives ()).toList, a.value.toText ++ a.rest = t := by
  have hspells := hg.spells_eager (Rules.spells_eager hrules budget) t
  intro a ha
  refine hspells a ?_
  change a ∈ (g.eagerWithin rules t budget).items
  rw [← listing_within]
  exact ha

/-- Names and single characters in nested brackets, and what follows on the line. -/
theorem texts_append_rest_nested :
    let rules : Rules :=
      [("nest", .choice [.sequence [.literal ['['], many (.rule "nest"), .literal [']']], name,
        .map alphanumeric id])]
    let g : Grammar := .bind (.rule "nest") (keeping (.optional line))
    let t : Text := ['[', 'a', 'b', '1', ']', '!', '\n', 'c']
    g.KeepsTexts ∧ (∀ name, (rules.get name).KeepsTexts) ∧
      ∃ a ∈ ((g.within rules 6 t).alternatives ()).toList,
        a.rest = ['c'] ∧ a.value.depth = 3 ∧ a.value.toText ++ a.rest = t := by
  intro rules g t
  have hg : g.KeepsTexts :=
    .bind (f := fun _ => .optional line) (.rule "nest") fun _ => .optional .line
  have hrules : ∀ name, (rules.get name).KeepsTexts := by
    refine Rules.get_induction .fail fun rule hrule => ?_
    obtain rfl := List.mem_singleton.mp hrule
    refine .choice ?_
    simp only [List.forall_mem_cons, List.not_mem_nil, false_imp_iff, implies_true, and_true]
    refine ⟨.sequence ?_, .name, KeepsTexts.alphanumeric.identity⟩
    simp only [List.forall_mem_cons, List.not_mem_nil, false_imp_iff, implies_true, and_true]
    exact ⟨.literal _, (KeepsTexts.rule "nest").many, .literal _⟩
  have hmem : (['c'], 3) ∈ ((g.within rules 6 t).alternatives ()).toList.map
      fun a => (a.rest, a.value.depth) := by decide +kernel
  obtain ⟨a, ha, heq⟩ := List.mem_map.mp hmem
  obtain ⟨hrest, hdepth⟩ := Prod.mk.inj heq
  exact ⟨hg, hrules, a, ha, hrest, hdepth, texts_append_rest hg hrules 6 t a ha⟩

end Grammar

end Backtrack
