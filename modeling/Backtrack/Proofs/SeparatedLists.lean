import Backtrack.Proofs.DerivedForms

/-!
Lists with separators. They are read as a repetition of items with a separator behind each, and one
more item. That is the same as to read an item and a separator and then the rest of the list, or
else one item: in the same order, whatever items and separators offer to go back to. So a list has
an item, and a separator is only taken together with the item behind it.
-/

namespace Backtrack

namespace Grammar

def consItem (v : Value) : Value := .list (v.first :: v.second.second.items)

def oneItem (v : Value) : Value := .list [v]

end Grammar

namespace Parser

variable {α : Type} {p q : Parser Value} {t u : Text}

/-- Items with separators between them, from the beginning of a text up to what the last item leaves
over. -/
inductive ItemsBetween (item separator : Parser Value) : Text → List Value → Text → Prop
  | last {t : Text} {a : Alternative Value} (h : a ∈ ((item t).alternatives ()).toList) :
      ItemsBetween item separator t [a.value] a.rest
  | more {t r : Text} {a b : Alternative Value} {vs : List Value}
      (hitem : a ∈ ((item t).alternatives ()).toList)
      (hseparator : b ∈ ((separator a.rest).alternatives ()).toList)
      (hrest : ItemsBetween item separator b.rest vs r) :
      ItemsBetween item separator t (a.value :: vs) r

theorem many_eq_or {p : Parser α} (hp : p.Advances t) :
    p.many t = ((p.bind fun v => p.many.map (v :: ·)).or (succeed [])) t := by
  have hmax : (Bounds.atLeast 0).max ≠ some 0 := Option.some_ne_none 0 |>.symm
  rw [many, repeated_eq_or hp hmax, stop_of_min_eq_zero rfl, and_eq_bind, map_bind]
  simp only [map_map]
  rfl

/-- What comes behind a repetition comes behind its longer runs first, and then on the text as it
stands. -/
theorem many_bind_eq_or {β : Type} {p : Parser α} (hp : p.Advances t) (f : List α → Parser β) :
    p.many.bind f t = ((p.bind fun v => p.many.bind fun vs => f (v :: vs)).or (f [])) t := by
  calc
    p.many.bind f t = (p.many t).bind fun a => f a.value a.rest := rfl
    _ = ((p.bind fun v => p.many.map (v :: ·)).or (succeed [])).bind f t := by
      rw [many_eq_or hp]
      rfl
    _ = ((p.bind fun v => p.many.bind fun vs => f (v :: vs)).or (f [])) t := by
      simp only [or_bind, bind_bind, bind_map, or_bind_succeed]

end Parser

namespace Grammar

open Backtrack.Parser (and_eq_bind map_bind map_map bind_map bind_bind ItemsBetween)

section Lists

variable {parsers : String → Parser Value} {item separator : Grammar} {t r : Text}

/-- The lists are the runs of items with separators, each with one more item. -/
theorem parser_separatedBy (parsers : String → Parser Value) (item separator : Grammar) :
    (separatedBy item separator).parser parsers =
      ((and item separator).parser parsers).many.bind fun vs =>
        (item.parser parsers).map fun v => .list (vs.map Value.first ++ [v]) := by
  simp only [separatedBy, many, parser, and_eq_bind, map_bind, map_map, bind_map]
  rfl

theorem separatedBy_eq_or (hadv : ((and item separator).parser parsers).Advances t) :
    (separatedBy item separator).parser parsers t =
      ((((and item separator).parser parsers).bind fun v =>
        ((separatedBy item separator).parser parsers).map fun l => .list (v.first :: l.items)).or
          ((item.parser parsers).map oneItem)) t := by
  simp only [parser_separatedBy, map_bind, map_map]
  exact Parser.many_bind_eq_or hadv _

/-- The pairs of an item and a separator, one part at a time. -/
theorem separatedBy_eq_or_parts (hadv : ((and item separator).parser parsers).Advances t) :
    (separatedBy item separator).parser parsers t =
      (or (map (and item (and separator (separatedBy item separator))) consItem)
        (map item oneItem)).parser parsers t := by
  have hparts : ((and item separator).parser parsers).bind (fun v =>
        ((separatedBy item separator).parser parsers).map fun l => .list (v.first :: l.items)) =
      (map (and item (and separator (separatedBy item separator))) consItem).parser parsers := by
    simp only [parser, and_eq_bind, map_bind, map_map, bind_map, bind_bind]
    rfl
  rw [separatedBy_eq_or hadv, hparts]
  rfl

theorem listing_separatedBy (hadv : ((and item separator).parser parsers).Advances t) :
    ((separatedBy item separator).parser parsers t).listing =
      (((and item separator).parser parsers t).listing.flatMap fun a =>
        ((separatedBy item separator).parser parsers a.rest).listing.map fun l =>
          .list (a.value.first :: l.items)).append
        ((item.parser parsers t).listing.map oneItem) := by
  rw [separatedBy_eq_or hadv]
  simp only [Parser.or, Parser.bind, Parser.map, Opening.listing_append, Opening.listing_bind,
    Opening.listing_map]

theorem listing_and (p q : Grammar) (t : Text) :
    ((and p q).parser parsers t).listing =
      (p.parser parsers t).listing.flatMap fun a =>
        (q.parser parsers a.rest).listing.map (.pair a.value) := by
  simp only [parser, Parser.and, Parser.map, Opening.listing_map, Opening.listing_bind,
    Listing.map_flatMap, Listing.map_map]

/-- Every list goes from item to item, with a separator in between, and ends with an item. -/
theorem itemsBetween_of_mem (hadv : ((and item separator).parser parsers).Advances t)
    {l : Alternative Value}
    (hl : l ∈ ((separatedBy item separator).parser parsers t).listing.items) :
    ∃ vs, vs ≠ [] ∧ l.value = .list vs ∧
      ItemsBetween (item.parser parsers) (separator.parser parsers) t vs l.rest := by
  induction hn : t.length using Nat.strong_induction_on generalizing t l with
  | _ n ih =>
      rw [listing_separatedBy hadv] at hl
      rcases Listing.mem_append hl with hl | hl
      · obtain ⟨x, hx, hl⟩ := Listing.mem_flatMap hl
        obtain ⟨more, hmore, rfl⟩ := List.mem_map.mp hl
        obtain ⟨vs, -, hvs, hrest⟩ := ih _ (hn ▸ hadv.length_lt hx) (hadv.rest hx) hmore rfl
        rw [listing_and] at hx
        obtain ⟨a, ha, hx⟩ := Listing.mem_flatMap hx
        obtain ⟨b, hb, rfl⟩ := List.mem_map.mp hx
        refine ⟨a.value :: vs, List.cons_ne_nil _ _, ?_, .more ha hb hrest⟩
        simp only [Alternative.map, hvs]
        rfl
      · obtain ⟨a, ha, rfl⟩ := List.mem_map.mp hl
        exact ⟨[a.value], List.cons_ne_nil _ _, rfl, .last ha⟩

/-- Where the lists come to an end, every way from item to item is among them. -/
theorem mem_of_itemsBetween (hadv : ((and item separator).parser parsers).Advances t)
    (hends : ((separatedBy item separator).parser parsers t).listing.complete) {vs : List Value}
    (h : ItemsBetween (item.parser parsers) (separator.parser parsers) t vs r) :
    ⟨.list vs, r⟩ ∈ ((separatedBy item separator).parser parsers t).listing.items := by
  induction h with
  | @last t a ha =>
      rw [listing_separatedBy hadv, Listing.complete_append] at hends
      rw [listing_separatedBy hadv, Listing.items_append hends.1, List.mem_append]
      exact .inr (List.mem_map_of_mem ha)
  | @more t r a b vs ha hb _ ih =>
      rw [listing_separatedBy hadv, Listing.complete_append] at hends
      obtain ⟨hpairs, hlists⟩ := Listing.complete_flatMap.mp hends.1
      let x : Alternative Value := ⟨.pair a.value b.value, b.rest⟩
      have hx : x ∈ ((and item separator).parser parsers t).listing.items := by
        rw [listing_and] at hpairs ⊢
        rw [Listing.items_flatMap hpairs, List.mem_flatMap]
        exact ⟨a, ha, List.mem_map_of_mem hb⟩
      have hbehind := hadv.rest hx
      have hmore := ih hbehind (hlists x hx)
      rw [listing_separatedBy hadv, Listing.items_append hends.1, Listing.items_flatMap hends.1]
      exact List.mem_append_left _ (List.mem_flatMap.mpr ⟨x, hx, List.mem_map_of_mem hmore⟩)

/-- **Lists with separators unfold one item at a time.** Item and separator may be any parsers, as a
grammar may be a name that stands for any. Let an item with a separator behind it take something on
every end of the text. A list is an item, a separator and the rest of the list, or else one item;
both sides give the same alternatives in the same order, and even make the same calls, at the
opening and at every pull. Where the alternatives come to an end, their values are the lists, never
empty, that lead from item to item with a separator in between; so no list takes a separator without
an item behind it, and wherever an item matches it is a list of its own. -/
theorem separatedBy_unfolds (hadv : ((and item separator).parser parsers).Advances t) :
    (separatedBy item separator).parser parsers t =
      (or (map (and item (and separator (separatedBy item separator))) consItem)
        (map item oneItem)).parser parsers t ∧
    ((((separatedBy item separator).parser parsers t).alternatives ()).ends →
      let lists := (((separatedBy item separator).parser parsers t).alternatives ()).toList
      (∀ l ∈ lists, ∃ vs, vs ≠ [] ∧ l.value = .list vs ∧
        ItemsBetween (item.parser parsers) (separator.parser parsers) t vs l.rest) ∧
      (∀ vs r, ItemsBetween (item.parser parsers) (separator.parser parsers) t vs r →
        ⟨.list vs, r⟩ ∈ lists) ∧
      ∀ a ∈ ((item.parser parsers t).alternatives ()).toList,
        ⟨.list [a.value], a.rest⟩ ∈ lists) := by
  refine ⟨separatedBy_eq_or_parts hadv, fun hends => ⟨fun l hl => itemsBetween_of_mem hadv hl,
    fun vs r h => mem_of_itemsBetween hadv hends h, fun a ha => ?_⟩⟩
  exact mem_of_itemsBetween hadv hends (.last ha)

end Lists

/-- Items of one or two letters with a letter or a comma as separator, which can all be read in
several ways. -/
theorem separatedBy_unfolds_letters :
    let item := or (literal ['a', 'a']) (literal ['a'])
    let separator := or (literal [',']) (literal ['a'])
    let t : Text := ['a', 'a', 'a', ',']
    let lists := (((separatedBy item separator).parser (fun _ => .fail) t).alternatives ()).toList
    ((and item separator).parser fun _ => .fail).Advances t ∧
      (((separatedBy item separator).parser (fun _ => .fail) t).alternatives ()).ends ∧
      lists.map (fun l => (l.value.items.map Value.toText, l.rest)) =
        [([['a'], ['a']], [',']), ([['a', 'a']], ['a', ',']), ([['a']], ['a', 'a', ','])] ∧
      ∀ a ∈ ((item.parser (fun _ => .fail) t).alternatives ()).toList,
        ⟨.list [a.value], a.rest⟩ ∈ lists := by
  intro item separator t lists
  have hadv : ((and item separator).parser fun _ => .fail).Advances t := by decide +kernel
  have hends : (((separatedBy item separator).parser (fun _ => .fail) t).alternatives ()).ends := by
    decide +kernel
  exact ⟨hadv, hends, by decide +kernel, ((separatedBy_unfolds hadv).2 hends).2.2⟩

end Grammar

end Backtrack
