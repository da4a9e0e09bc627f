import LinkOrder.Proofs.Numerals
import LinkOrder.UnitFile.Contents

namespace LinkOrder.UnitFile

open Text Markup

/-- What stands in a unit file: an import, or a unit with its references. -/
inductive Item
  | imported (path : String)
  | unit (head : UnitHead) (refs : List (RefKind × String))

def idsOf (kind : RefKind) (refs : List (RefKind × String)) : List String :=
  (refs.filter (·.1 = kind)).map (·.2)

namespace Item

def unit? : Item → Option LinkUnit
  | imported _ => none
  | unit head refs =>
    some { head.toUnit with defs := idsOf .defn refs, pres := idsOf .pre refs, deps := idsOf .dep refs }

def path? : Item → Option String
  | imported path => some path
  | unit _ _ => none

end Item

def contentsOf (items : List Item) : Contents :=
  ⟨items.filterMap Item.unit?, items.filterMap Item.path?⟩

def UnitHead.attributes (h : UnitHead) : List (String × String) :=
  ("name", h.name) :: (h.modified.toList.map fun n ↦ ("mod", toString n)) ++
    (h.size.toList.map fun n ↦ ("size", toString n)) ++
    (h.optimizedSize.toList.map fun n ↦ ("optimizedsize", toString n)) ++
    if h.native then [("native", "true")] else []

def unitKeys : List String := ["name", "mod", "size", "optimizedsize", "native"]

/-- The attributes are those known, in any order, with others among them that are not recognised. -/
def Among (keys : List String) (known attributes : List (String × String)) : Prop :=
  ∃ others, attributes.Perm (known ++ others) ∧ ∀ a ∈ others, a.1 ∉ keys

/-- An element around `body`. One with nothing in it can be a single tag. -/
inductive Wrapped (name : String) (attributes : List (String × String)) :
    List Line → List Line → Prop
  | single : Wrapped name attributes [] [.single name attributes]
  | pair {body : List Line} :
      Wrapped name attributes body (.opening name attributes :: (body ++ [.closing name]))

def RefLaid (ref : RefKind × String) (lines : List Line) : Prop :=
  ∃ attributes, Among ["id"] [("id", ref.2)] attributes ∧
    Wrapped ref.1.element attributes [] lines

inductive Item.Laid : Item → List Line → Prop
  | imported {path : String} {attributes : List (String × String)} {lines : List Line}
      (h : Among ["path"] [("path", path)] attributes)
      (hlines : Wrapped "import" attributes [] lines) : Laid (.imported path) lines
  | unit {head : UnitHead} {refs : List (RefKind × String)} {attributes : List (String × String)}
      {bodies : List (List Line)} {lines : List Line} (h : Among unitKeys head.attributes attributes)
      (hrefs : List.Forall₂ RefLaid refs bodies)
      (hlines : Wrapped "unit" attributes bodies.flatten lines) : Laid (.unit head refs) lines

/-- The text is a unit file with these items. -/
def Written (items : List Item) (text : String) : Prop :=
  ∃ attributes bodies lines, List.Forall₂ Item.Laid items bodies ∧
    Wrapped "units" attributes bodies.flatten lines ∧ Markup.Written lines text

/-- The draft of a unit of which the attributes with these keys were read. -/
def HeadDraft.upTo (head : UnitHead) (keys : List String) : HeadDraft where
  name := if "name" ∈ keys then some head.name else none
  modified := if "mod" ∈ keys then head.modified else none
  size := if "size" ∈ keys then head.size else none
  optimizedSize := if "optimizedsize" ∈ keys then head.optimizedSize else none
  native := "native" ∈ keys && head.native

theorem UnitHead.mem_attributes {head : UnitHead} {a : String × String} :
    a ∈ head.attributes ↔ a = ("name", head.name) ∨
      (∃ n, head.modified = some n ∧ a = ("mod", toString n)) ∨
      (∃ n, head.size = some n ∧ a = ("size", toString n)) ∨
      (∃ n, head.optimizedSize = some n ∧ a = ("optimizedsize", toString n)) ∨
      head.native = true ∧ a = ("native", "true") := by
  cases hn : head.native <;> simp [attributes, hn, eq_comm]

theorem HeadDraft.put_upTo {head : UnitHead} {a : String × String} (keys : List String)
    (h : a ∈ head.attributes ∨ a.1 ∉ unitKeys) :
    (HeadDraft.upTo head keys).put (attributeOf a) = .ok (HeadDraft.upTo head (keys ++ [a.1])) := by
  have hkey : (attributeOf a).key = encode a.1 := rfl
  rcases h with h | h
  · rcases UnitHead.mem_attributes.1 h with
      rfl | ⟨n, hn, rfl⟩ | ⟨n, hn, rfl⟩ | ⟨n, hn, rfl⟩ | ⟨hn, rfl⟩
    · simp [put, hkey, text_attributeOf, upTo, bind, Except.bind, pure, Except.pure]
    · simp [put, hkey, encode_inj, number_attributeOf, upTo, bind, Except.bind, pure, Except.pure, hn]
    · simp [put, hkey, encode_inj, number_attributeOf, upTo, bind, Except.bind, pure, Except.pure, hn]
    · simp [put, hkey, encode_inj, number_attributeOf, upTo, bind, Except.bind, pure, Except.pure, hn]
    · have hvalue : (attributeOf ("native", "true")).value = encode "true" := by decide
      simp [put, hkey, encode_inj, hvalue, upTo, hn]
  · simp only [unitKeys, List.mem_cons, List.not_mem_nil, or_false, not_or] at h
    obtain ⟨hname, hmod, hsize, hoptimized, hnative⟩ := h
    simp [put, hkey, encode_inj, upTo, hname, hmod, hsize, hoptimized, hnative, Ne.symm hname,
      Ne.symm hmod, Ne.symm hsize, Ne.symm hoptimized, Ne.symm hnative]

theorem HeadDraft.foldlM_put {head : UnitHead} {attributes : List (String × String)}
    (h : ∀ a ∈ attributes, a ∈ head.attributes ∨ a.1 ∉ unitKeys) (keys : List String) :
    (attributes.map attributeOf).foldlM HeadDraft.put (HeadDraft.upTo head keys) =
      .ok (HeadDraft.upTo head (keys ++ attributes.map Prod.fst)) := by
  induction attributes generalizing keys with
  | nil => simp; rfl
  | cons a attributes ih =>
    rw [List.map_cons, List.foldlM_cons, put_upTo keys (h a List.mem_cons_self)]
    change List.foldlM put (upTo head (keys ++ [a.1])) (attributes.map attributeOf) = _
    rw [ih fun x hx ↦ h x (List.mem_cons_of_mem _ hx)]
    simp

theorem HeadDraft.upTo_eq {head : UnitHead} {keys : List String}
    (h : ∀ a ∈ head.attributes, a.1 ∈ keys) :
    HeadDraft.upTo head keys =
      ⟨some head.name, head.modified, head.size, head.optimizedSize, head.native⟩ := by
  have hknown {key : String} {o : Option UInt64} (ho : ∀ n, o = some n → key ∈ keys) :
      (if key ∈ keys then o else none) = o := by
    cases o with
    | none => simp
    | some n => simp [ho n rfl]
  have hname := h ("name", head.name) (UnitHead.mem_attributes.2 (.inl rfl))
  have hmod := hknown fun n hn ↦ h ("mod", toString n)
    (UnitHead.mem_attributes.2 (.inr (.inl ⟨n, hn, rfl⟩)))
  have hsize := hknown fun n hn ↦ h ("size", toString n)
    (UnitHead.mem_attributes.2 (.inr (.inr (.inl ⟨n, hn, rfl⟩))))
  have hoptimized := hknown fun n hn ↦ h ("optimizedsize", toString n)
    (UnitHead.mem_attributes.2 (.inr (.inr (.inr (.inl ⟨n, hn, rfl⟩)))))
  have hnative : ("native" ∈ keys && head.native) = head.native := by
    cases hn : head.native with
    | false => simp
    | true =>
      have := h ("native", "true") (UnitHead.mem_attributes.2 (.inr (.inr (.inr (.inr ⟨hn, rfl⟩)))))
      simp [this]
  simp only [upTo, hmod, hsize, hoptimized, hnative, if_pos hname]

section Tags

variable {attributes known : List (String × String)} {tag : Tag}

theorem Among.mem {keys : List String} (h : Among keys known attributes) {a : String × String} (ha : a ∈ known) :
    a ∈ attributes := by
  obtain ⟨others, hperm, -⟩ := h
  exact hperm.mem_iff.2 (List.mem_append_left _ ha)

theorem Among.of_mem {keys : List String} (h : Among keys known attributes) {a : String × String}
    (ha : a ∈ attributes) : a ∈ known ∨ a.1 ∉ keys := by
  obtain ⟨others, hperm, hothers⟩ := h
  exact (List.mem_append.1 (hperm.mem_iff.1 ha)).imp_right (hothers a)

theorem UnitHead.ofTag_eq {head : UnitHead} (htag : tag.attributeList = attributes.map attributeOf)
    (h : Among unitKeys head.attributes attributes) : UnitHead.ofTag tag = .ok head := by
  have hfold := HeadDraft.foldlM_put (fun a ha ↦ h.of_mem ha) []
  rw [List.nil_append, HeadDraft.upTo_eq fun a ha ↦ List.mem_map_of_mem (h.mem ha)] at hfold
  have hempty : HeadDraft.upTo head [] = {} := by simp [HeadDraft.upTo]
  rw [hempty] at hfold
  unfold UnitHead.ofTag
  rw [htag, hfold]
  rfl

theorem get?_eq {key value : String} (htag : tag.attributeList = attributes.map attributeOf)
    (h : Among [key] [(key, value)] attributes) : tag.get? key = some (attributeOf (key, value)) := by
  have hmem := h.mem List.mem_cons_self
  unfold Tag.get?
  rw [htag]
  cases hfind : (attributes.map attributeOf).find? (·.key == encode key) with
  | none =>
    have hnone := List.find?_eq_none.1 hfind _ (List.mem_map_of_mem hmem)
    simp [attributeOf] at hnone
  | some b =>
    obtain ⟨a, ha, rfl⟩ := List.mem_map.1 (List.mem_of_find?_eq_some hfind)
    have hkey : a.1 = key := by
      have hfound := List.find?_some hfind
      simpa [attributeOf, encode_inj] using hfound
    rcases h.of_mem ha with hknown | hother
    · rw [List.mem_singleton.1 hknown]
    · exact absurd (hkey ▸ List.mem_cons_self) hother

theorem ofTag?_unit {head : UnitHead} (hname : tag.name = encode "unit")
    (htag : tag.attributeList = attributes.map attributeOf)
    (h : Among unitKeys head.attributes attributes) :
    Element.ofTag? tag = some (.ok (.unit head)) := by
  unfold Element.ofTag?
  rw [if_pos hname, UnitHead.ofTag_eq htag h]
  rfl

theorem ofTag?_imported {path : String} (hname : tag.name = encode "import")
    (htag : tag.attributeList = attributes.map attributeOf)
    (h : Among ["path"] [("path", path)] attributes) :
    Element.ofTag? tag = some (.ok (.imported path)) := by
  unfold Element.ofTag?
  rw [if_neg (by rw [hname]; decide), if_pos hname, get?_eq htag h]
  dsimp only
  rw [text_attributeOf]
  rfl

theorem ofTag?_ref {kind : RefKind} {id : String} (hname : tag.name = encode kind.element)
    (htag : tag.attributeList = attributes.map attributeOf)
    (h : Among ["id"] [("id", id)] attributes) :
    Element.ofTag? tag = some (.ok (.ref kind id)) := by
  have hkind : RefKind.ofName? tag.name = some kind := by
    rw [hname]
    cases kind <;> decide
  unfold Element.ofTag?
  rw [if_neg (by rw [hname]; cases kind <;> decide), if_neg (by rw [hname]; cases kind <;> decide),
    hkind, get?_eq htag h]
  dsimp only [Option.map_some]
  rw [text_attributeOf]
  rfl

end Tags

namespace Reader

variable {r r' r'' : Reader} {events events' : List Event}

/-- From `r` the events are told and reading goes on from `r'`. -/
def Tells (r : Reader) (events : List Event) (r' : Reader) : Prop :=
  r.run = { r'.run with events := events ++ r'.run.events }

namespace Tells

theorem refl (r : Reader) : r.Tells [] r := rfl

theorem trans (h : r.Tells events r') (h' : r'.Tells events' r'') :
    r.Tells (events ++ events') r'' := by
  unfold Tells at h h' ⊢
  rw [h, h', List.append_assoc]

theorem one {event : Event} (h : r.next = (.ok event, r')) (hne : event ≠ .eof) :
    r.Tells [event] r' := run_of_event h hne

theorem none (h : r.next = r'.next) : r.Tells [] r' := by
  change r.run = r'.run
  cases hnext : r'.next with
  | mk result reader =>
    rw [hnext] at h
    cases result with
    | error e => rw [run_of_error h, run_of_error hnext]
    | ok event =>
      by_cases heof : event = .eof
      · subst heof
        rw [run_of_eof h, run_of_eof hnext]
      · rw [run_of_event h heof, run_of_event hnext heof]

end Tells

end Reader

section Reading

open Reader (Tells)

variable {place : Place} {rest : List Markup.Event} {tag : Tag} {element : Element} {event : Event}

/-- A reader at a place of a document that is read up to there. -/
def readerAt (place : Place) (rest : List Markup.Event) : Reader := ⟨⟨rest, none⟩, place⟩

theorem next_readerAt (hplace : place ≠ .ending) (events : List Markup.Event) :
    (readerAt place events).next = readOn none place none events := if_neg hplace

theorem tells_closed {name : Bytes} (hprolog : place ≠ .prolog) (hending : place ≠ .ending)
    (h : ¬(name = encode "unit" ∧ place = .inside)) :
    Tells (readerAt place (.closed name :: rest)) [] (readerAt place rest) := by
  refine .none ?_
  rw [next_readerAt hending, next_readerAt hending, readOn]
  simp only [if_neg hprolog, if_neg h]

theorem tells_tag (isEmpty : Bool) (hprolog : place ≠ .prolog) (hending : place ≠ .ending)
    (htag : Element.ofTag? tag = some (.ok element)) (hevent : eventOf place element = .ok event)
    (hne : event ≠ .eof) :
    Tells (readerAt place ((if isEmpty then .empty tag else .opened tag) :: rest)) [event]
      (readerAt (place.after isEmpty event) rest) := by
  refine .one ?_ hne
  have htell : tell none place isEmpty rest (.ok element) =
      (.ok event, readerAt (place.after isEmpty event) rest) := by
    simp only [tell, Except.bind, hevent]
    rfl
  rw [next_readerAt hending]
  cases isEmpty <;> simp only [readOn, if_neg hprolog, htag, htell, Bool.false_eq_true, if_true, if_false]

theorem exists_append {α β : Type} {R : α → β → Prop} {l₁ l₂ : List α} {u : List β}
    (h : List.Forall₂ R (l₁ ++ l₂) u) :
    ∃ u₁ u₂, u = u₁ ++ u₂ ∧ List.Forall₂ R l₁ u₁ ∧ List.Forall₂ R l₂ u₂ := by
  have htake := List.forall₂_take l₁.length h
  have hdrop := List.forall₂_drop l₁.length h
  rw [List.take_left] at htake
  rw [List.drop_left] at hdrop
  exact ⟨_, _, (List.take_append_drop l₁.length u).symm, htake, hdrop⟩

theorem Wrapped.gives {name : String} {attributes : List (String × String)} {body lines : List Line}
    {events : List Markup.Event} (h : Wrapped name attributes body lines)
    (hgives : List.Forall₂ Line.Gives lines events) :
    ∃ tag : Tag, tag.name = encode name ∧ tag.attributeList = attributes.map attributeOf ∧
      (body = [] ∧ events = [.empty tag] ∨
        ∃ inner, List.Forall₂ Line.Gives body inner ∧
          events = .opened tag :: (inner ++ [.closed (encode name)])) := by
  cases h with
  | single =>
    cases hgives with
    | cons he hnil =>
      cases hnil
      cases he with
      | @single _ _ tag hname htag => exact ⟨tag, hname, htag, .inl ⟨rfl, rfl⟩⟩
  | pair =>
    cases hgives with
    | cons he hrest =>
      obtain ⟨inner, last, rfl, hinner, hlast⟩ := exists_append hrest
      cases hlast with
      | cons he' hnil =>
        cases hnil
        cases he'
        cases he with
        | @opening _ _ tag hname htag => exact ⟨tag, hname, htag, .inr ⟨inner, hinner, rfl⟩⟩

theorem tells_leaf {name : String} {attributes : List (String × String)} {lines : List Line}
    {events : List Markup.Event} (hprolog : place ≠ .prolog) (hending : place ≠ .ending)
    (hunit : encode name ≠ encode "unit") (h : Wrapped name attributes [] lines)
    (hgives : List.Forall₂ Line.Gives lines events)
    (htag : ∀ tag : Tag, tag.name = encode name → tag.attributeList = attributes.map attributeOf →
      Element.ofTag? tag = some (.ok element))
    (hevent : eventOf place element = .ok event) (hne : event ≠ .eof)
    (hafter : ∀ isEmpty, place.after isEmpty event = place) (rest : List Markup.Event) :
    Tells (readerAt place (events ++ rest)) [event] (readerAt place rest) := by
  obtain ⟨tag, hname, hattributes, hevents⟩ := h.gives hgives
  have htold (isEmpty : Bool) (rest : List Markup.Event) :
      Tells (readerAt place ((if isEmpty then .empty tag else .opened tag) :: rest)) [event]
        (readerAt place rest) := by
    have htells : Tells _ _ (readerAt (place.after isEmpty event) rest) :=
      tells_tag isEmpty hprolog hending (htag tag hname hattributes) hevent hne
    rwa [hafter] at htells
  rcases hevents with ⟨-, rfl⟩ | ⟨inner, hinner, rfl⟩
  · exact htold true rest
  · cases hinner
    exact (htold false _).trans (tells_closed hprolog hending fun hclosed ↦ hunit hclosed.1)

theorem tells_ref (ref : RefKind × String) (lines : List Line) (events rest : List Markup.Event)
    (h : RefLaid ref lines) (hgives : List.Forall₂ Line.Gives lines events) :
    Tells (readerAt .inside (events ++ rest)) [.ref ref.1 ref.2] (readerAt .inside rest) := by
  obtain ⟨attributes, hamong, hwrapped⟩ := h
  have hunit : encode ref.1.element ≠ encode "unit" := by cases ref.1 <;> decide
  exact tells_leaf (by decide) (by decide) hunit hwrapped hgives
    (fun _ hname htag ↦ ofTag?_ref hname htag hamong) rfl (by simp) (fun _ ↦ rfl) rest

theorem tells_all {α : Type} {Laid : α → List Line → Prop} {told : α → List Event}
    (hone : ∀ a lines events rest, Laid a lines → List.Forall₂ Line.Gives lines events →
      Tells (readerAt place (events ++ rest)) (told a) (readerAt place rest))
    {l : List α} {bodies : List (List Line)} {events : List Markup.Event}
    (h : List.Forall₂ Laid l bodies) (hgives : List.Forall₂ Line.Gives bodies.flatten events)
    (rest : List Markup.Event) :
    Tells (readerAt place (events ++ rest)) (l.flatMap told) (readerAt place rest) := by
  induction h generalizing events with
  | nil =>
    cases hgives
    exact .refl _
  | @cons a lines l bodies hlaid _ ih =>
    obtain ⟨first, later, rfl, hfirst, hlater⟩ := exists_append hgives
    rw [List.append_assoc]
    exact (hone a lines first (later ++ rest) hlaid hfirst).trans (ih hlater)

theorem refs_eq_nil {refs : List (RefKind × String)} {bodies : List (List Line)}
    (h : List.Forall₂ RefLaid refs bodies) (hnil : bodies.flatten = []) : refs = [] := by
  cases h with
  | nil => rfl
  | cons hlaid _ =>
    obtain ⟨attributes, -, hwrapped⟩ := hlaid
    cases hwrapped <;> simp at hnil

def Item.events : Item → List Event
  | imported path => [.imported path]
  | unit head refs => .unitStart head :: ((refs.flatMap fun ref ↦ [.ref ref.1 ref.2]) ++ [.unitEnd])

theorem tells_item (item : Item) (lines : List Line) (events rest : List Markup.Event)
    (h : item.Laid lines) (hgives : List.Forall₂ Line.Gives lines events) :
    Tells (readerAt .outside (events ++ rest)) item.events (readerAt .outside rest) := by
  cases h with
  | imported hamong hlines =>
    exact tells_leaf (by decide) (by decide) (by decide) hlines hgives
      (fun _ hname htag ↦ ofTag?_imported hname htag hamong) rfl (by simp) (fun _ ↦ rfl) rest
  | @unit head refs attributes bodies lines hamong hrefs hlines =>
    obtain ⟨tag, hname, htag, hevents⟩ := hlines.gives hgives
    have htold (isEmpty : Bool) (rest : List Markup.Event) :
        Tells (readerAt .outside ((if isEmpty then .empty tag else .opened tag) :: rest))
          [.unitStart head] (readerAt (if isEmpty then .ending else .inside) rest) :=
      tells_tag isEmpty (by decide) (by decide) (ofTag?_unit hname htag hamong) rfl (by simp)
    rcases hevents with ⟨hbody, rfl⟩ | ⟨inner, hinner, rfl⟩
    · have hend : Tells (readerAt .ending rest) [.unitEnd] (readerAt .outside rest) :=
        .one rfl (by simp)
      rw [refs_eq_nil hrefs hbody]
      exact (htold true rest).trans hend
    · have hend : Tells (readerAt .inside (.closed (encode "unit") :: rest)) [.unitEnd]
          (readerAt .outside rest) := .one rfl (by simp)
      have hrefs' := tells_all tells_ref hrefs hinner (.closed (encode "unit") :: rest)
      rw [List.cons_append, List.append_assoc]
      exact (htold false _).trans (hrefs'.trans hend)

theorem tells_root (isEmpty : Bool) (h : tag.name = encode "units") (rest : List Markup.Event) :
    Tells (readerAt .prolog ((if isEmpty then .empty tag else .opened tag) :: rest)) []
      (readerAt .outside rest) := by
  refine .none ?_
  rw [next_readerAt (by decide), next_readerAt (by decide)]
  cases isEmpty <;> simp only [readOn, if_pos h, Bool.false_eq_true, if_true, if_false]

theorem tells_document {items : List Item} {bodies : List (List Line)} {lines : List Line}
    {attributes : List (String × String)} {events : List Markup.Event}
    (hitems : List.Forall₂ Item.Laid items bodies)
    (hlines : Wrapped "units" attributes bodies.flatten lines)
    (hgives : List.Forall₂ Line.Gives lines events) :
    Tells (readerAt .prolog events) (items.flatMap Item.events) (readerAt .outside []) := by
  obtain ⟨tag, hname, -, ⟨hbody, rfl⟩ | ⟨inner, hinner, rfl⟩⟩ := hlines.gives hgives
  · have hinner : List.Forall₂ Line.Gives bodies.flatten [] := hbody ▸ .nil
    exact (tells_root true hname []).trans (tells_all tells_item hitems hinner [])
  · have hend : Tells (readerAt .outside [.closed (encode "units")]) [] (readerAt .outside []) :=
      tells_closed (by decide) (by decide) (by decide)
    have hall := (tells_all tells_item hitems hinner _).trans hend
    rw [List.append_nil] at hall
    exact (tells_root false hname _).trans hall

end Reading

theorem foldl_put_refs (refs : List (RefKind × String)) (contents : Contents) (u : LinkUnit) :
    (refs.flatMap fun ref ↦ [Event.ref ref.1 ref.2]).foldl Collected.put ⟨contents, some u⟩ =
      ⟨contents, some { u with
        defs := u.defs ++ idsOf .defn refs
        pres := u.pres ++ idsOf .pre refs
        deps := u.deps ++ idsOf .dep refs }⟩ := by
  induction refs generalizing u with
  | nil => simp [idsOf]
  | cons ref refs ih =>
    obtain ⟨kind, id⟩ := ref
    rw [List.flatMap_cons, List.singleton_append, List.foldl_cons, Collected.put, Option.map_some, ih]
    cases kind <;> simp [addRef, idsOf]

theorem foldl_put_items (items : List Item) (contents : Contents) :
    (items.flatMap Item.events).foldl Collected.put ⟨contents, none⟩ =
      ⟨⟨contents.units ++ items.filterMap Item.unit?, contents.imports ++ items.filterMap Item.path?⟩,
        none⟩ := by
  induction items generalizing contents with
  | nil => simp
  | cons item items ih =>
    rw [List.flatMap_cons, List.foldl_append]
    cases item with
    | imported path =>
      simp only [Item.events, List.foldl_cons, List.foldl_nil, Collected.put, ih]
      simp [List.filterMap_cons, Item.unit?, Item.path?]
    | unit head refs =>
      simp only [Item.events, List.foldl_cons, List.foldl_append, List.foldl_nil, Collected.put,
        foldl_put_refs, ih]
      simp [List.filterMap_cons, Item.unit?, Item.path?, UnitHead.toUnit]

theorem ofEvents_items (items : List Item) :
    Contents.ofEvents (items.flatMap Item.events) = contentsOf items := by
  unfold Contents.ofEvents
  rw [foldl_put_items]
  simp [contentsOf]

def Item.lines : Item → List Line
  | imported path => [.single "import" [("path", path)]]
  | unit head refs => .opening "unit" head.attributes ::
      ((refs.map fun ref ↦ .single ref.1.element [("id", ref.2)]) ++ [.closing "unit"])

def documentLines (items : List Item) : List Line :=
  .opening "units" [] :: (items.flatMap Item.lines ++ [.closing "units"])

theorem Among.self (keys : List String) (known : List (String × String)) : Among keys known known :=
  ⟨[], by simp, by simp⟩

theorem Item.laid_lines (item : Item) : item.Laid item.lines := by
  cases item with
  | imported path => exact .imported (.self _ _) .single
  | unit head refs =>
    have hrefs : List.Forall₂ RefLaid refs
        (refs.map fun ref ↦ [.single ref.1.element [("id", ref.2)]]) := by
      rw [List.forall₂_map_right_iff, List.forall₂_same]
      exact fun ref _ ↦ ⟨_, .self _ _, .single⟩
    have hflatten : (refs.map fun ref ↦ [Line.single ref.1.element [("id", ref.2)]]).flatten =
        refs.map fun ref ↦ .single ref.1.element [("id", ref.2)] := by
      rw [← List.flatMap_def, List.map_eq_flatMap]
    refine .unit (.self _ _) hrefs ?_
    rw [hflatten]
    exact .pair

theorem UnitHead.isKey_of_mem {head : UnitHead} {a : String × String} (h : a ∈ head.attributes) :
    IsKey a.1 := by
  have hkeys : ∀ key ∈ unitKeys, IsKey key := by decide
  refine hkeys a.1 ?_
  rcases mem_attributes.1 h with rfl | ⟨n, -, rfl⟩ | ⟨n, -, rfl⟩ | ⟨n, -, rfl⟩ | ⟨-, rfl⟩ <;>
    simp [unitKeys]

theorem Item.sound_of_mem_lines {item : Item} {line : Line} (h : line ∈ item.lines) : line.Sound := by
  have hsingle {name key value : String} (hname : IsName name) (hkey : IsKey key) :
      (Line.single name [(key, value)]).Sound := by
    refine ⟨hname, fun a ha ↦ ?_⟩
    rw [List.mem_singleton.1 ha]
    exact hkey
  cases item with
  | imported path =>
    rw [List.mem_singleton.1 h]
    exact hsingle (by decide) (by decide)
  | unit head refs =>
    rcases List.mem_cons.1 h with rfl | h
    · exact ⟨by decide, fun a ha ↦ UnitHead.isKey_of_mem ha⟩
    · rcases List.mem_append.1 h with h | h
      · obtain ⟨ref, -, rfl⟩ := List.mem_map.1 h
        exact hsingle (by cases ref.1 <;> decide) (by decide)
      · rw [List.mem_singleton.1 h, Line.Sound]
        decide

theorem sound_documentLines {items : List Item} : ∀ line ∈ documentLines items, line.Sound := by
  intro line h
  rcases List.mem_cons.1 h with rfl | h
  · exact ⟨by decide, by simp⟩
  · rcases List.mem_append.1 h with h | h
    · obtain ⟨item, -, hline⟩ := List.mem_flatMap.1 h
      exact item.sound_of_mem_lines hline
    · rw [List.mem_singleton.1 h, Line.Sound]
      decide

theorem written_documentLines (items : List Item) :
    Written items (Markup.print (documentLines items)) := by
  have hitems : List.Forall₂ Item.Laid items (items.map Item.lines) := by
    rw [List.forall₂_map_right_iff, List.forall₂_same]
    exact fun item _ ↦ item.laid_lines
  refine ⟨[], items.map Item.lines, documentLines items, hitems, ?_, written_print sound_documentLines⟩
  rw [← List.flatMap_def]
  exact .pair

/-- Every list of units and imports can be written as a unit file. In whatever way it is written, and
however the bytes arrive, reading gives exactly these units and imports, in order. -/
theorem unit_file_reads_back (items : List Item) :
    Written items (Markup.print (documentLines items)) ∧
      ∀ text d, Written items text →
        UnitFile.read (.arriving d (encode text)) = .ok (contentsOf items) := by
  refine ⟨written_documentLines items, fun text d h ↦ ?_⟩
  obtain ⟨attributes, bodies, lines, hitems, hlines, htext⟩ := h
  obtain ⟨events, hdocument, hgives⟩ := htext.arriving d
  have htells := tells_document hitems hlines hgives
  have heof : (readerAt .outside []).run = ⟨[], .ok (), readerAt .outside []⟩ :=
    Reader.run_of_eof rfl
  have hrun : Reader.run ⟨⟨events, none⟩, .prolog⟩ =
      ⟨items.flatMap Item.events, .ok (), readerAt .outside []⟩ := by
    rw [Reader.Tells, heof, List.append_nil] at htells
    exact htells
  simp only [hdocument, UnitFile.read, hrun, ofEvents_items]
  rfl

namespace Sample

def head : UnitHead := { name := "a\"<b>", size := some 18446744073709551615, native := true }

def items : List Item :=
  [.unit head [(.dep, "é&"), (.defn, "/>")], .imported "it's", .unit { name := "" } []]

def tags : List Line :=
  [.opening "units" [("v", "1")],
    .opening "unit" [("native", "true"), ("lang", "x"), ("size", "18446744073709551615"), ("name", "a\"<b>")],
    .single "dep" [("id", "é&")], .opening "def" [("id", "/>")], .closing "def", .closing "unit",
    .single "import" [("path", "it's")], .single "unit" [("name", "")], .closing "units"]

def file : String :=
  "?\n<units v=\"1\"> > <unit native=\"true\" lang=\"x\"\tsize=\"18446744073709551615\"" ++
    " name=\"a&quot;&lt;b&gt;\" ><dep id=\"é&amp;\"/>and<def id=\"/&gt;\">.</def></unit >" ++
    "<import path=\"it&apos;s\"/>\n<unit name=\"\"/></units>\n"

theorem written_tags : Markup.Written tags file := by
  have hspace : Blank " " := by decide
  have hnone : '<' ∉ "".toList := by decide
  have hone {key value : String} (hkey : IsKey key) :
      AttributesWritten [(key, value)] (" " ++ key ++ "=\"" ++ escape value ++ "\"" ++ "") :=
    .cons hspace (by decide) hkey (.nil (by decide))
  have h : ∃ text, text = file ∧ Markup.Written tags text := by
    refine ⟨_, ?_,
      .cons (show '<' ∉ "?\n".toList by decide) (.opening (by decide) (hone (by decide)))
      (.cons (show '<' ∉ " > ".toList by decide) (.opening (by decide)
        (.cons hspace (by decide) (by decide) (.cons hspace (by decide) (by decide)
        (.cons (show Blank "\t" by decide) (by decide) (by decide)
        (.cons hspace (by decide) (by decide) (.nil hspace))))))
      (.cons hnone (.single (by decide) (hone (by decide)))
      (.cons (show '<' ∉ "and".toList by decide) (.opening (by decide) (hone (by decide)))
      (.cons (show '<' ∉ ".".toList by decide) (.closing (by decide) (show Blank "" by decide))
      (.cons hnone (.closing (by decide) hspace)
      (.cons hnone (.single (by decide) (hone (by decide)))
      (.cons (show '<' ∉ "\n".toList by decide) (.single (by decide) (hone (by decide)))
      (.cons hnone (.closing (by decide) (show Blank "" by decide))
      (.nil (show '<' ∉ "\n".toList by decide))))))))))⟩
    decide +kernel
  obtain ⟨text, rfl, htext⟩ := h
  exact htext

theorem written_file : Written items file := by
  have hhead : Among unitKeys head.attributes
      [("native", "true"), ("lang", "x"), ("size", "18446744073709551615"), ("name", "a\"<b>")] :=
    ⟨[("lang", "x")], by decide +kernel, by decide⟩
  have hdep : RefLaid (.dep, "é&") [.single "dep" [("id", "é&")]] := ⟨_, .self _ _, .single⟩
  have hdef : RefLaid (.defn, "/>") [.opening "def" [("id", "/>")], .closing "def"] :=
    ⟨_, .self _ _, .pair⟩
  have hitems : List.Forall₂ Item.Laid items _ :=
    .cons (.unit hhead (.cons hdep (.cons hdef .nil)) .pair)
      (.cons (.imported (.self _ _) .single) (.cons (.unit (.self _ _) .nil .single) .nil))
  exact ⟨[("v", "1")], _, tags, hitems, .pair, written_tags⟩

theorem file_reads_back :
    Written items file ∧
      UnitFile.read (.arriving (.blocks 4 (encode file).length) (encode file)) =
        .ok ⟨[{ head.toUnit with defs := ["/>"], deps := ["é&"] }, { name := "" }], ["it's"]⟩ :=
  ⟨written_file, (unit_file_reads_back items).2 file _ written_file⟩

end Sample

end LinkOrder.UnitFile
