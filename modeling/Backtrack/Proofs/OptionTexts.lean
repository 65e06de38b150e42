import Backtrack.Options.Reader
import Backtrack.Proofs.Encoding
import Backtrack.Proofs.Skipping

/-!
Options as JSON texts. An object gives its options by the known fields alone: other fields may hold
any JSON, and neither their order nor white space matters. A known field that stands twice is
refused, whatever else is there. Options that are written are read back as they were, from an object
and from an array of both values.
-/

namespace Backtrack.Options

open Json Text

variable {α : Type} {a s p v : Text} {r : Source}

/-! ### Settings -/

/-- A setting: the name of its field, the values that may stand there, and the value that it has
without the field. -/
structure Setting (α : Type) where
  name : Text
  Writes : Text → α → Prop
  default : α

inductive WritesBool : Text → Bool → Prop
  | true : WritesBool "true".toList true
  | false : WritesBool "false".toList false

/-- A number of 64 bits without sign, point or exponent, or `null`. -/
inductive WritesLimit : Text → Option UInt64 → Prop
  | null : WritesLimit "null".toList none
  | digits {s : Text} {n : UInt64} (h : IsWhole s) (hn : decimalValue s = n.toNat) :
      WritesLimit s (some n)

def completeness : Setting Bool := ⟨"require_complete".toList, WritesBool, true⟩

def limit : Setting (Option UInt64) := ⟨"max_alternatives".toList, WritesLimit, none⟩

namespace Setting

variable (σ : Setting α) (fields : List (Text × Text))

def Names (f : Text × Text) : Prop := Spells f.1 σ.name

/-- Every field of the setting holds a value that may stand there. -/
def Legal : Prop := ∀ f ∈ fields, σ.Names f → ∃ x, σ.Writes f.2 x

def Unrepeated : Prop := fields.Pairwise fun f g => ¬(σ.Names f ∧ σ.Names g)

/-- The setting has the value that stands in its field, and the default if there is no such
field. -/
def Gives (x : α) : Prop :=
  (∀ f ∈ fields, σ.Names f → σ.Writes f.2 x) ∧ ((∀ f ∈ fields, ¬σ.Names f) → x = σ.default)

/-- What has been read of the setting in these fields, which do not repeat it. -/
structure Seen (o : Option α) : Prop where
  unrepeated : σ.Unrepeated fields
  writes : ∀ f ∈ fields, σ.Names f → ∃ x, o = some x ∧ σ.Writes f.2 x
  exists_names : o.isSome → ∃ f ∈ fields, σ.Names f

variable {σ fields} {f : Text × Text} {o : Option α} {x : α}

theorem names_iff {name : Text} (h : Spells f.1 name) : σ.Names f ↔ name = σ.name := by
  refine ⟨h.unique, ?_⟩
  rintro rfl
  exact h

theorem seen_nil : σ.Seen [] none := ⟨.nil, by simp, by simp⟩

theorem Seen.concat_of_not_names (h : σ.Seen fields o) (hf : ¬σ.Names f) :
    σ.Seen (fields ++ [f]) o where
  unrepeated := List.pairwise_append.mpr
    ⟨h.unrepeated, List.pairwise_singleton _ f, by simp [hf]⟩
  writes := by
    rw [List.forall_mem_append]
    exact ⟨h.writes, by simp [hf]⟩
  exists_names ho := by
    obtain ⟨g, hg, hnames⟩ := h.exists_names ho
    exact ⟨g, List.mem_append_left _ hg, hnames⟩

theorem Seen.not_names (h : σ.Seen fields none) {g : Text × Text} (hg : g ∈ fields) :
    ¬σ.Names g := by
  intro hnames
  obtain ⟨x, hx, -⟩ := h.writes g hg hnames
  cases hx

theorem Seen.concat_of_names (h : σ.Seen fields none) (hf : σ.Names f) (hx : σ.Writes f.2 x) :
    σ.Seen (fields ++ [f]) (some x) where
  unrepeated := by
    refine List.pairwise_append.mpr ⟨h.unrepeated, List.pairwise_singleton _ f, ?_⟩
    exact fun g hg _ _ hboth => h.not_names hg hboth.1
  writes := by
    rw [List.forall_mem_append]
    refine ⟨fun g hg hnames => absurd hnames (h.not_names hg), ?_⟩
    simpa using fun _ => hx
  exists_names _ := ⟨f, by simp, hf⟩

theorem Seen.not_unrepeated (h : σ.Seen fields o) (ho : o.isSome) (hf : σ.Names f) :
    ¬σ.Unrepeated (fields ++ [f]) := by
  obtain ⟨g, hg, hnames⟩ := h.exists_names ho
  intro hunrepeated
  exact (List.pairwise_append.mp hunrepeated).2.2 g hg f List.mem_cons_self ⟨hnames, hf⟩

theorem Seen.gives (h : σ.Seen fields o) : σ.Gives fields (o.getD σ.default) := by
  constructor
  · intro f hf hnames
    obtain ⟨x, rfl, hx⟩ := h.writes f hf hnames
    exact hx
  · intro hnone
    cases o with
    | none => rfl
    | some x =>
        obtain ⟨f, hf, hnames⟩ := h.exists_names rfl
        exact absurd hnames (hnone f hf)

end Setting

/-! ### Values -/

theorem readBool_append {b : Bool} (h : WritesBool v b) (ha : IsSpacing a) (r : Source) :
    readBool (a.map some ++ (v.map some ++ r)) = .ok (b, r) := by
  rw [readBool, skipSpace_append ha]
  cases h with
  | true => exact congrArg (Except.map (true, ·)) (readWord_append "rue".toList r)
  | false => exact congrArg (Except.map (false, ·)) (readWord_append "alse".toList r)

theorem readLimit_append {l : Option UInt64} (h : WritesLimit v l) (ha : IsSpacing a)
    (hr : Ends r) : readLimit (a.map some ++ (v.map some ++ r)) = .ok (l, r) := by
  rw [readLimit, skipSpace_append ha]
  cases h with
  | null => exact congrArg (Except.map (none, ·)) (readWord_append "ull".toList r)
  | @digits s n h hn =>
      have hfits : decimalValue v < UInt64.size := hn ▸ n.toNat_lt
      have hread := readNumber_append h hfits hr
      rw [hn, UInt64.ofNat_toNat] at hread
      obtain ⟨c, t, rfl⟩ := List.exists_cons_of_ne_nil h.1.1
      have hc : c.isDigit := h.1.2 c List.mem_cons_self
      rw [List.map_cons, List.cons_append, skipSpace_cons (isSpace_of_isDigit hc)]
      split
      · rename_i heq
        cases heq
      · rename_i heq
        exact absurd (Option.some.inj (List.cons.inj heq).1) (ne_of_isDigit hc rfl)
      · rename_i heq
        exact absurd (Option.some.inj (List.cons.inj heq).1) (ne_of_isDigit hc rfl)
      · rename_i heq
        cases heq
        have hdigit : isDigit (some c) := hc
        rw [if_pos hdigit]
        rw [List.map_cons, List.cons_append] at hread
        rw [hread]

theorem WritesBool.isValue {b : Bool} (h : WritesBool v b) : IsValue v := by
  cases h <;> exact .word (by simp)

theorem WritesLimit.isValue {l : Option UInt64} (h : WritesLimit v l) : IsValue v := by
  cases h with
  | null => exact .word (by simp)
  | digits h => exact .magnitude h.isMagnitude

/-! ### Fields -/

/-- The values of a setting are read by `read`, up to what stands behind them. -/
def Setting.ReadBy (σ : Setting α) (read : Source → Except Fault (α × Source)) : Prop :=
  ∀ {v : Text} {x : α} {a : Text} {r : Source}, σ.Writes v x → IsSpacing a → Ends r →
    read (a.map some ++ (v.map some ++ r)) = .ok (x, r)

theorem Setting.ReadBy.unique {σ : Setting α} {read : Source → Except Fault (α × Source)} {x y : α}
    (h : σ.ReadBy read) (hx : σ.Writes v x) (hy : σ.Writes v y) : x = y := by
  have hread := (h hx isSpacing_nil ends_nil).symm.trans (h hy isSpacing_nil ends_nil)
  exact congrArg Prod.fst (Except.ok.inj hread)

theorem completeness_readBy : completeness.ReadBy readBool := fun h ha _ => readBool_append h ha _

theorem limit_readBy : limit.ReadBy readLimit := readLimit_append

/-- A field that is accepted as far as other fields do not matter. -/
structure Acceptable (f : Text × Text) : Prop where
  spells : ∃ name, Spells f.1 name
  value : IsValue f.2
  completeness : completeness.Names f → ∃ b, WritesBool f.2 b
  limit : limit.Names f → ∃ l, WritesLimit f.2 l

structure Read (fields : List (Text × Text)) (g : Fields) : Prop where
  completeness : completeness.Seen fields g.requireComplete
  limit : limit.Seen fields g.maxAlternatives

def Unrepeated (fields : List (Text × Text)) : Prop :=
  completeness.Unrepeated fields ∧ limit.Unrepeated fields

variable {fields past : List (Text × Text)} {f : Text × Text} {g : Fields}

/-- A field of a setting is read if it is the first one, and refused otherwise. -/
theorem readKnown_append {σ : Setting α} {read : Source → Except Fault (α × Source)} {o : Option α}
    {a b : Text} (h : σ.Seen past o) (hread : σ.ReadBy read) (hnames : σ.Names f)
    (hlegal : ∃ x, σ.Writes f.2 x) (ha : IsSpacing a) (hb : IsSpacing b) (hr : Ends r) :
    (∃ x, readKnown o read
        (a.map some ++ some ':' :: (b.map some ++ (f.2.map some ++ r))) = .ok (x, r) ∧
      σ.Seen (past ++ [f]) (some x)) ∨
    readKnown o read (a.map some ++ some ':' :: (b.map some ++ (f.2.map some ++ r))) =
        .error .mismatched ∧ ¬σ.Unrepeated (past ++ [f]) := by
  cases o with
  | some y => exact .inr ⟨rfl, h.not_unrepeated rfl hnames⟩
  | none =>
      obtain ⟨x, hx⟩ := hlegal
      refine .inl ⟨x, ?_, h.concat_of_names hnames hx⟩
      rw [readKnown, colon_append ha]
      exact hread hx hb hr

/-- The fields have been read, with `r` behind them, or they are refused because one of them
repeats another. -/
inductive Settles (fields : List (Text × Text)) (r : Source) :
    Except Fault (Fields × Source) → Prop
  | read {g : Fields} (h : Read fields g) : Settles fields r (.ok (g, r))
  | repeated (h : ¬Unrepeated fields) : Settles fields r (.error .mismatched)

/-- What a key stands for: the setting whose name the field has, or none. -/
inductive StandsFor (f : Text × Text) : Key → Prop
  | requireComplete (h : completeness.Names f) (h' : ¬limit.Names f) : StandsFor f .requireComplete
  | maxAlternatives (h : ¬completeness.Names f) (h' : limit.Names f) : StandsFor f .maxAlternatives
  | unknown (h : ¬completeness.Names f) (h' : ¬limit.Names f) : StandsFor f .unknown

theorem standsFor_ofText {name : Text} (h : Spells f.1 name) : StandsFor f (.ofText name) := by
  have hcompleteness : completeness.Names f ↔ name = completeness.name := Setting.names_iff h
  have hlimit : limit.Names f ↔ name = limit.name := Setting.names_iff h
  unfold Key.ofText
  split
  · rename_i heq
    refine .requireComplete (hcompleteness.mpr heq) fun hnames => ?_
    exact absurd (heq.symm.trans (hlimit.mp hnames)) (by decide)
  · rename_i hne
    split
    · rename_i heq
      exact .maxAlternatives (mt hcompleteness.mp hne) (hlimit.mpr heq)
    · rename_i hne'
      exact .unknown (mt hcompleteness.mp hne) (mt hlimit.mp hne')

/-- A field either joins those that have been read, or it repeats one of them. -/
theorem settles_readField {b : Text} {key : Key} (h : Read past g) (hf : Acceptable f)
    (hkey : StandsFor f key) (ha : IsSpacing a) (hb : IsSpacing b) (hr : Ends r) :
    Settles (past ++ [f]) r
      (readField g (a.map some ++ some ':' :: (b.map some ++ (f.2.map some ++ r))) key) := by
  cases hkey with
  | requireComplete hnames hother =>
      rcases readKnown_append h.completeness completeness_readBy hnames (hf.completeness hnames) ha
        hb hr with ⟨x, hread, hseen⟩ | ⟨hread, hrepeated⟩
      · rw [readField, hread]
        exact .read ⟨hseen, h.limit.concat_of_not_names hother⟩
      · rw [readField, hread]
        exact .repeated fun hunrepeated => hrepeated hunrepeated.1
  | maxAlternatives hother hnames =>
      rcases readKnown_append h.limit limit_readBy hnames (hf.limit hnames) ha hb hr with
        ⟨x, hread, hseen⟩ | ⟨hread, hrepeated⟩
      · rw [readField, hread]
        exact .read ⟨h.completeness.concat_of_not_names hother, hseen⟩
      · rw [readField, hread]
        exact .repeated fun hunrepeated => hrepeated hunrepeated.2
  | unknown hother hother' =>
      have hskip := skipValue_append hb hf.value hr
      simp only [readField, colon_append ha, hskip]
      exact .read ⟨h.completeness.concat_of_not_names hother, h.limit.concat_of_not_names hother'⟩

theorem settles_readEntry (h : Read past g) (hf : Acceptable f) (hp : WritesField p f)
    (hr : Ends r) : Settles (past ++ [f]) r (readEntry g (p.map some ++ r)) := by
  obtain ⟨name, hname⟩ := hf.spells
  obtain ⟨ha, hb⟩ := hp
  simp only [List.map_append, List.map_cons, List.append_assoc, List.cons_append]
  rw [readEntry, readString_append hname]
  exact settles_readField h hf (standsFor_ofText hname) ha hb hr

/-! ### Objects -/

def readEntries (g : Fields) (u : Source) : Except Fault (Fields × Source) :=
  (readEntry g (skipSpace u)).bind fun (g, r) => readFields g r

theorem readFields_eq (g : Fields) (u : Source) :
    readFields g u =
      match skipSpace u with
      | [] => .error .truncated
      | some '\x7d' :: r => .ok (g, r)
      | some ',' :: r => readEntries g r
      | _ :: _ => .error .malformed := by
  rw [readFields]
  split
  · rename_i heq
    simp only [heq]
  · rename_i heq
    simp only [heq]
  · rename_i heq
    simp only [heq]
    split <;> rename_i hread <;> simp only [readEntries, hread, Except.bind]
  · rename_i heq
    simp only [heq]

theorem readFields_comma (ha : IsSpacing a) (g : Fields) (r : Source) :
    readFields g (a.map some ++ some ',' :: r) = readEntries g r := by
  rw [readFields_eq, skipSpace_append ha, skipSpace_cons rfl]
  rfl

theorem readFields_closing (ha : IsSpacing a) (g : Fields) (r : Source) :
    readFields g (a.map some ++ some '\x7d' :: r) = .ok (g, r) := by
  rw [readFields_eq, skipSpace_append ha, skipSpace_cons rfl]
  rfl

theorem readEntries_spacing (ha : IsSpacing a) (g : Fields) (r : Source) :
    readEntries g (a.map some ++ r) = readEntries g r := by
  rw [readEntries, readEntries, skipSpace_append ha]

theorem readEntries_field (hp : WritesField p f) (g : Fields) (r : Source) :
    readEntries g (p.map some ++ r) =
      (readEntry g (p.map some ++ r)).bind fun (g, r) => readFields g r := by
  obtain ⟨ha, hb⟩ := hp
  rw [readEntries, List.map_cons, List.cons_append, skipSpace_cons rfl]

theorem Unrepeated.of_prefix {all : List (Text × Text)} (h : Unrepeated all)
    (hpre : fields <+: all) : Unrepeated fields :=
  ⟨h.1.sublist hpre.sublist, h.2.sublist hpre.sublist⟩

theorem Settles.bind {all : List (Text × Text)} {e : Except Fault (Fields × Source)} {r' : Source}
    {next : Fields × Source → Except Fault (Fields × Source)} (h : Settles fields r e)
    (hpre : fields <+: all) (hnext : ∀ g, Read fields g → Settles all r' (next (g, r))) :
    Settles all r' (e.bind next) := by
  cases h with
  | read h => exact hnext _ h
  | repeated h => exact .repeated fun hunrepeated => h (hunrepeated.of_prefix hpre)

/-- Fields are read one after the other, up to one that repeats another. -/
theorem settles_readEntries (hs : Separated WritesField IsComma s fields)
    (hfields : ∀ f ∈ fields, Acceptable f) (h : Read past g) (ha : IsSpacing a) (r : Source) :
    Settles (past ++ fields) r
      (readEntries g (s.map some ++ (a.map some ++ some '\x7d' :: r))) := by
  -- What has been read of both settings goes from each field to the next.
  induction hs generalizing past g with
  | last hp =>
      have hends := ends_append ha (Bracket.object.ends_closing r)
      have hentry := settles_readEntry h (hfields _ List.mem_cons_self) hp hends
      rw [readEntries_field hp]
      refine hentry.bind (List.prefix_refl _) fun g hg => ?_
      have hclosing : readFields g (a.map some ++ Bracket.object.closing :: r) = .ok (g, r) :=
        readFields_closing ha g r
      dsimp only
      rw [hclosing]
      exact .read hg
  | @more p gap t f fields hp hgap _ ih =>
      rw [List.forall_mem_cons] at hfields
      obtain ⟨hbefore, hbehind⟩ := hgap
      simp only [List.map_append, List.map_cons, List.append_assoc, List.cons_append]
      rw [readEntries_field hp, List.append_cons past f fields]
      have hends : ∀ r, Ends (_ ++ some ',' :: r) := fun r => ends_append hbefore (ends_comma r)
      refine (settles_readEntry h hfields.1 hp (hends _)).bind (List.prefix_append _ _)
        fun g hg => ?_
      dsimp only
      rw [readFields_comma hbefore, readEntries_spacing hbehind]
      exact ih hfields.2 hg

theorem readObject_eq_readEntries {u : Source} (h : (skipSpace u).head? = some (some '"')) :
    readObject u = readEntries {} u := by
  rw [readObject]
  split
  · rename_i heq
    rw [heq] at h
    cases h
  · rw [readEntries]
    split <;> rename_i heq <;> rw [heq] <;> rfl

/-- What stands between the brackets of an object is read up to the closing one. -/
theorem settles_readObject (hs : Enclosed WritesField s fields)
    (hfields : ∀ f ∈ fields, Acceptable f) (r : Source) :
    Settles fields r (readObject (s.map some ++ some '\x7d' :: r)) := by
  have hstart : Read [] {} := ⟨Setting.seen_nil, Setting.seen_nil⟩
  cases hs with
  | nothing ha =>
      rw [readObject, skipSpace_append ha, skipSpace_cons rfl]
      exact .read hstart
  | parts ha hs hb =>
      have hquote : ∀ p, ∀ f ∈ fields, WritesField p f → ∃ c t, p = c :: t ∧ c = '"' := by
        rintro _ _ - ⟨-, -⟩
        exact ⟨_, _, rfl, rfl⟩
      obtain ⟨_, t, rfl, rfl⟩ := exists_head_of_separated hs hquote
      have hentries := settles_readEntries hs hfields hstart hb r
      simp only [List.map_append, List.append_assoc]
      rw [readObject_eq_readEntries, readEntries_spacing ha]
      · exact hentries
      · rw [skipSpace_append ha]
        rfl

/-! ### Options from an object -/

theorem read_object (ha : IsSpacing a) (r : Source) :
    read (a.map some ++ some '\x7b' :: r) = read.finish (readObject r) := by
  rw [read, skipSpace_append ha, skipSpace_cons rfl]
  rfl

theorem read_array (ha : IsSpacing a) (r : Source) :
    read (a.map some ++ some '[' :: r) = read.finish (readArray r) := by
  rw [read, skipSpace_append ha, skipSpace_cons rfl]
  rfl

theorem finish_ok (ha : IsSpacing a) (g : Fields) :
    read.finish (.ok (g, a.map some)) = .ok g.toOptions := by
  have hend : skipSpace (a.map some) = [] := by
    rw [← List.append_nil (a.map some), skipSpace_append ha]
    rfl
  rw [read.finish, hend]
  rfl

/-- An object whose fields are acceptable is refused only if it has a known field twice. -/
theorem ofText_object {t : Text} (h : WritesObject t fields)
    (hfields : ∀ f ∈ fields, Acceptable f) :
    (∃ o, ofText t = .ok o ∧ Unrepeated fields ∧ completeness.Gives fields o.requireComplete ∧
      limit.Gives fields o.maxAlternatives) ∨
    ofText t = .error .mismatched ∧ ¬Unrepeated fields := by
  obtain @⟨a, s, b, fields, ha, hs, -, -, hb⟩ := h
  have hread := settles_readObject hs hfields (b.map some)
  rw [ofText]
  simp only [List.map_append, List.map_cons]
  rw [read_object ha]
  generalize readObject _ = e at hread ⊢
  cases hread with
  | read h =>
      exact .inl ⟨_, finish_ok hb _, ⟨h.completeness.unrepeated, h.limit.unrepeated⟩,
        h.completeness.gives, h.limit.gives⟩
  | repeated h => exact .inr ⟨rfl, h⟩

theorem ofText_both {t k l w : Text} {o : Options} (h : WritesObject t [(k, v), (l, w)])
    (hk : Spells k completeness.name) (hl : Spells l limit.name)
    (hv : WritesBool v o.requireComplete) (hw : WritesLimit w o.maxAlternatives) :
    ofText t = .ok o := by
  have hfirst : ¬limit.Names (k, v) := mt (Setting.names_iff hk).mp (by decide)
  have hsecond : ¬completeness.Names (l, w) := mt (Setting.names_iff hl).mp (by decide)
  have hfields : ∀ f ∈ [(k, v), (l, w)], Acceptable f := by
    rw [List.forall_mem_cons, List.forall_mem_singleton]
    exact ⟨⟨⟨_, hk⟩, hv.isValue, fun _ => ⟨_, hv⟩, fun hnames => absurd hnames hfirst⟩,
      ⟨⟨_, hl⟩, hw.isValue, fun hnames => absurd hnames hsecond, fun _ => ⟨_, hw⟩⟩⟩
  rcases ofText_object h hfields with ⟨o', ho, -, hcompleteness, hlimit⟩ | ⟨-, hrepeated⟩
  · have hmem : (l, w) ∈ [(k, v), (l, w)] := by simp
    have hbool := completeness_readBy.unique (hcompleteness.1 _ List.mem_cons_self hk) hv
    have hcount := limit_readBy.unique (hlimit.1 _ hmem hl) hw
    obtain ⟨b, c⟩ := o'
    obtain ⟨b', c'⟩ := o
    dsimp only at hbool hcount
    rw [ho, hbool, hcount]
  · refine absurd ⟨?_, ?_⟩ hrepeated
    · exact .cons (by simp [hsecond]) (List.pairwise_singleton _ _)
    · exact .cons (by simp [hfirst]) (List.pairwise_singleton _ _)

/-- **Options from an object.** Let the values of known fields be legal, and let each key spell a
text. If no known field is there twice, the object gives the options that hold what stands in the
known fields, and the default where there is none. If one is, the object is refused, as JSON of
another shape than the one wanted. -/
theorem known_fields_give_options {t : Text} {fields : List (Text × Text)}
    (h : WritesObject t fields) (hkeys : ∀ f ∈ fields, ∃ name, Spells f.1 name)
    (hcompleteness : completeness.Legal fields) (hlimit : limit.Legal fields) :
    (Unrepeated fields → ∃ o, ofText t = .ok o ∧ completeness.Gives fields o.requireComplete ∧
        limit.Gives fields o.maxAlternatives) ∧
      (¬Unrepeated fields → ofText t = .error .mismatched) := by
  have hfields : ∀ f ∈ fields, Acceptable f := by
    obtain ⟨-, -, -, hv, -⟩ := h
    exact fun f hf => ⟨hkeys f hf, hv f hf, hcompleteness f hf, hlimit f hf⟩
  rcases ofText_object h hfields with ⟨o, ho, hunrepeated, hgives⟩ | ⟨ho, hrepeated⟩
  · exact ⟨fun _ => ⟨o, ho, hgives⟩, fun hrepeated => absurd hunrepeated hrepeated⟩
  · exact ⟨fun hunrepeated => absurd hunrepeated hrepeated, fun _ => ho⟩

/-- A field that does not matter, with a bracket inside a string and a number beyond the range of
doubles, stands in front of the limit. If the limit stands there once more, it is refused. -/
theorem known_fields_give_options_nested :
    let other : Text × Text := ("x".toList, "[\x7b\"]\":1e999\x7d]".toList)
    let count : Text × Text := ("max_alternatives".toList, ['7'])
    let once : Text := "\x7b \"x\":[\x7b\"]\":1e999\x7d] ,\"max_alternatives\":7\x7d".toList
    let twice : Text := "\x7b\"max_alternatives\":7,\"max_alternatives\":7\x7d".toList
    (WritesObject once [other, count] ∧ ∃ o, ofText once = .ok o ∧
      completeness.Gives [other, count] o.requireComplete ∧
        limit.Gives [other, count] o.maxAlternatives) ∧
      WritesObject twice [count, count] ∧ ofText twice = .error .mismatched := by
  intro other count once twice
  have hother : IsValue other.2 := by
    have hexponent : IsExponent "e999".toList :=
      @IsExponent.letter 'e' [] "999".toList (by decide) (by decide) (by decide)
    have hnumber : IsValue "1e999".toList :=
      .magnitude (@IsMagnitude.mk ['1'] [] _ (by decide) .none hexponent)
    have hfields : Enclosed WritesField _ [([']'], "1e999".toList)] :=
      .parts isSpacing_nil (.last (.mk isSpacing_nil isSpacing_nil)) isSpacing_nil
    have hinner : IsValue "\x7b\"]\":1e999\x7d".toList :=
      .object hfields (List.forall_mem_singleton.mpr (.plain (by decide) .nil))
        (List.forall_mem_singleton.mpr hnumber)
    exact .array (.parts isSpacing_nil (.last rfl) isSpacing_nil)
      (List.forall_mem_singleton.mpr hinner)
  have hcount : WritesLimit count.2 (some 7) := .digits (by decide) (by decide)
  have hx : Spells other.1 "x".toList := spells_flatMap_escape "x".toList
  have hname : Spells count.1 limit.name := spells_flatMap_escape limit.name
  have honce : WritesObject once [other, count] := by
    have hfields : Enclosed WritesField _ [other, count] := .parts (a := [' ']) (by decide)
      (.more (.mk isSpacing_nil isSpacing_nil) (.mk (a := [' ']) (by decide) isSpacing_nil)
        (.last (.mk isSpacing_nil isSpacing_nil))) isSpacing_nil
    refine .mk isSpacing_nil hfields ?_ ?_ isSpacing_nil
    · simpa using ⟨hx.isContent, hname.isContent⟩
    · simpa using ⟨hother, hcount.isValue⟩
  have htwice : WritesObject twice [count, count] := by
    have hfields : Enclosed WritesField _ [count, count] := .parts isSpacing_nil
      (.more (.mk isSpacing_nil isSpacing_nil) (.mk isSpacing_nil isSpacing_nil)
        (.last (.mk isSpacing_nil isSpacing_nil))) isSpacing_nil
    refine .mk isSpacing_nil hfields ?_ ?_ isSpacing_nil
    · simpa using hname.isContent
    · simpa using hcount.isValue
  have hother₁ : ¬completeness.Names other := mt (Setting.names_iff hx).mp (by decide)
  have hother₂ : ¬limit.Names other := mt (Setting.names_iff hx).mp (by decide)
  have hcount₁ : ¬completeness.Names count := mt (Setting.names_iff hname).mp (by decide)
  have hcount₂ : limit.Names count → ∃ l, WritesLimit count.2 l := fun _ => ⟨_, hcount⟩
  have hpair : ∀ (P : Text × Text → Prop) {f g : Text × Text}, P f → P g → ∀ x ∈ [f, g], P x :=
    fun P f g hf hg => List.forall_mem_cons.mpr ⟨hf, List.forall_mem_singleton.mpr hg⟩
  have hgives := known_fields_give_options honce (by simpa using ⟨⟨_, hx⟩, ⟨_, hname⟩⟩)
    (hpair _ (fun h => absurd h hother₁) fun h => absurd h hcount₁)
    (hpair _ (fun h => absurd h hother₂) hcount₂)
  have hrefused := known_fields_give_options htwice (by simpa using ⟨_, hname⟩)
    (hpair _ (fun h => absurd h hcount₁) fun h => absurd h hcount₁)
    (hpair _ hcount₂ hcount₂)
  have hunrepeated : Unrepeated [other, count] :=
    ⟨List.pairwise_pair.mpr fun h => hother₁ h.1, List.pairwise_pair.mpr fun h => hother₂ h.1⟩
  exact ⟨⟨honce, hgives.1 hunrepeated⟩, htwice,
    hrefused.2 fun h => List.pairwise_pair.mp h.2 ⟨hname, hname⟩⟩

/-- A key that spells no text is refused, although it is JSON and stands for no known field: half of
a surrogate pair in an escape is no character. -/
theorem key_without_text_is_refused :
    let t : Text := "\x7b\"\\udc00\":1\x7d".toList
    let fields : List (Text × Text) := [("\\udc00".toList, ['1'])]
    WritesObject t fields ∧ completeness.Legal fields ∧ limit.Legal fields ∧ Unrepeated fields ∧
      ofText t = .error .malformed := by
  intro t fields
  have hdigit : ∀ n < 16, IsHexDigit (Nat.digitChar n) n := fun n => isHexDigit_digitChar
  have hunit : WritesUnit "dc00".toList 0xdc00 :=
    .mk (hdigit 13 (by decide)) (hdigit 12 (by decide)) (hdigit 0 (by decide))
      (hdigit 0 (by decide))
  have hcontent : IsContent "\\udc00".toList := .unit hunit .nil
  have hread : readString ("\\udc00".toList.map some ++ [some '"']) = .error .malformed := by
    decide +kernel
  have hnone : ∀ name, ¬Spells "\\udc00".toList name := by
    intro name hname
    cases hread.symm.trans (readString_append hname [])
  have hfields : Enclosed WritesField _ fields :=
    .parts isSpacing_nil (.last (.mk isSpacing_nil isSpacing_nil)) isSpacing_nil
  have hone : IsValue ['1'] := .magnitude (IsWhole.isMagnitude (by decide))
  exact ⟨.mk isSpacing_nil hfields (List.forall_mem_singleton.mpr hcontent)
      (List.forall_mem_singleton.mpr hone) isSpacing_nil,
    List.forall_mem_singleton.mpr fun h => absurd h (hnone _),
    List.forall_mem_singleton.mpr fun h => absurd h (hnone _),
    ⟨List.pairwise_singleton _ _, List.pairwise_singleton _ _⟩, by decide +kernel⟩

/-! ### Options from an array -/

/-- Two parts of an array, each with the white space around it. -/
theorem exists_spacing_of_enclosed {w : Text} (h : Enclosed Eq s [v, w]) :
    ∃ a b c d, (IsSpacing a ∧ IsSpacing b ∧ IsSpacing c ∧ IsSpacing d) ∧
      a ++ (v ++ (b ++ ',' :: (c ++ (w ++ d)))) = s := by
  cases h with
  | parts ha hs hd =>
      cases hs with
      | more hv hcomma hs =>
          obtain ⟨hb, hc⟩ := hcomma
          cases hs with
          | last hw =>
              subst hv hw
              exact ⟨_, _, _, _, ⟨ha, hb, hc, hd⟩, by simp⟩
          | more _ _ hs => cases hs

theorem readArray_append {w : Text} {x : Bool} {l : Option UInt64} (hv : WritesBool v x)
    (hw : WritesLimit w l) (h : Enclosed Eq s [v, w]) (r : Source) :
    readArray (s.map some ++ some ']' :: r) = .ok (⟨some x, some l⟩, r) := by
  have hbool := fun r => readBool_append hv isSpacing_nil r
  have hlimit := fun r => readLimit_append (r := r) hw isSpacing_nil
  obtain ⟨e, t, rfl, hspace, hclosing⟩ := hv.isValue.begins
  obtain ⟨f, u, rfl, hspace', hclosing'⟩ := hw.isValue.begins
  obtain ⟨a, b, c, d, ⟨ha, hb, hc, hd⟩, rfl⟩ := exists_spacing_of_enclosed h
  have hcomma : isSpace (some ',') = false := rfl
  have hend : isSpace (some ']') = false := rfl
  have hends : Ends (d.map some ++ some ']' :: r) :=
    ends_append hd (Bracket.array.ends_closing r)
  simp only [List.map_nil, List.map_append, List.map_cons, List.append_assoc, List.cons_append,
    List.nil_append] at hbool hlimit ⊢
  rw [readArray, skipSpace_append ha, skipSpace_cons hspace]
  split
  · rename_i heq
    cases heq
  · rename_i heq
    exact absurd (List.cons.inj heq).1 hclosing
  · simp only [hbool, skipSpace_append hb, skipSpace_cons hcomma, skipSpace_append hc,
      skipSpace_cons hspace']
    split
    · rename_i heq
      exact absurd (List.cons.inj heq).1 hclosing'
    · simp only [hlimit _ hends, skipSpace_append hd, skipSpace_cons hend]

theorem ofText_array {w b : Text} {o : Options} (hv : WritesBool v o.requireComplete)
    (hw : WritesLimit w o.maxAlternatives) (ha : IsSpacing a) (h : Enclosed Eq s [v, w])
    (hb : IsSpacing b) : ofText (a ++ '[' :: (s ++ ']' :: b)) = .ok o := by
  rw [ofText]
  simp only [List.map_append, List.map_cons]
  rw [read_array ha, readArray_append hv hw h, finish_ok hb]
  rfl

/-! ### Options that are written -/

def limitJson : Option UInt64 → Json
  | none => .null
  | some n => .integer n.toNat

def toArray (o : Options) : Json := .array [.bool o.requireComplete, limitJson o.maxAlternatives]

theorem toJson_eq (o : Options) :
    o.toJson = .object [(completeness.name, .bool o.requireComplete),
      (limit.name, limitJson o.maxAlternatives)] := by
  rcases o with ⟨b, _ | n⟩ <;> rfl

theorem writesBool_toText (b : Bool) : WritesBool (Json.bool b).toText b := by
  cases b
  · exact .false
  · exact .true

theorem writesLimit_toText (l : Option UInt64) : WritesLimit (limitJson l).toText l := by
  cases l with
  | none => exact .null
  | some n => exact .digits (isWhole_ofNat n.toNat) (decimalValue_ofNat n.toNat)

theorem ofText_toText (o : Options) : ofText o.toText = .ok o := by
  have hv := writesBool_toText o.requireComplete
  have hw := writesLimit_toText o.maxAlternatives
  have hobject : WritesObject o.toText
      [(completeness.name.flatMap Json.escape, (Json.bool o.requireComplete).toText),
        (limit.name.flatMap Json.escape, (limitJson o.maxAlternatives).toText)] := by
    rw [toText, toJson_eq]
    refine writesObject_toText ?_
    simpa using ⟨hv.isValue, hw.isValue⟩
  exact ofText_both hobject (spells_flatMap_escape _) (spells_flatMap_escape _) hv hw

theorem ofText_toArray (o : Options) : ofText o.toArray.toText = .ok o := by
  have hitems : Enclosed Eq _
      [(Json.bool o.requireComplete).toText, (limitJson o.maxAlternatives).toText] :=
    .parts isSpacing_nil (.more rfl (.mk isSpacing_nil isSpacing_nil) (.last rfl)) isSpacing_nil
  have hread := ofText_array (writesBool_toText _) (writesLimit_toText _) isSpacing_nil hitems
    isSpacing_nil
  simpa [toArray, Json.toText, Json.toText.itemsText] using hread

theorem ofBytes_encode (t : Text) : ofBytes (Utf8.encode t) = ofText t := by
  rw [ofBytes, Utf8.decode_encode, ofText]

/-- **Options survive a write and a read.** The JSON text of options gives these options back,
whatever their limit, and so do the bytes of this text. The same holds for the array of both
values. -/
theorem written_options_are_read_back (o : Options) :
    ofText o.toText = .ok o ∧ ofBytes (Utf8.encode o.toText) = .ok o ∧
      ofText o.toArray.toText = .ok o ∧ ofBytes (Utf8.encode o.toArray.toText) = .ok o :=
  ⟨ofText_toText o, (ofBytes_encode _).trans (ofText_toText o), ofText_toArray o,
    (ofBytes_encode _).trans (ofText_toArray o)⟩

end Backtrack.Options
