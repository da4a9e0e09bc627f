import LinkOrder.Proofs.Missing
import LinkOrder.Proofs.ReadBack

namespace LinkOrder

namespace Markup

open Text

structure Head where
  name : String
  attributes : List (String × String)
  deriving DecidableEq, Repr

def Attribute.decode? (a : Attribute) : Option (String × String) :=
  (decode a.key).toOption.bind fun key ↦ (UnitFile.text a).toOption.map (key, ·)

def Head.ofTag? (tag : Tag) : Option Head :=
  (decode tag.name).toOption.bind fun name ↦
    (tag.attributeList.mapM Attribute.decode?).map fun attributes ↦ ⟨name, attributes⟩

inductive Node
  | mk (head : Head) (children : List Node)

def Node.head : Node → Head
  | ⟨head, _⟩ => head

structure Outline where
  /-- Those that are not closed yet, innermost first, each with the elements before it. -/
  around : List (Head × List Node) := []
  /-- Those in the innermost one that is not closed. -/
  done : List Node := []

namespace Outline

def close (o : Outline) (name : Bytes) : Option Outline :=
  match o.around with
  | [] => none
  | (head, before) :: around =>
    if encode head.name = name then some ⟨around, before ++ [⟨head, o.done⟩]⟩ else none

def put (o : Outline) : Event → Option Outline
  | .opened tag => (Head.ofTag? tag).map fun head ↦ ⟨(head, o.done) :: o.around, []⟩
  | .empty tag => (Head.ofTag? tag).map fun head ↦ ⟨o.around, o.done ++ [⟨head, []⟩]⟩
  | .closed name => o.close name
  | .passed => some o

theorem close_eq (head : Head) (before done : List Node) (around : List (Head × List Node)) :
    close ⟨(head, before) :: around, done⟩ (encode head.name) = some ⟨around, before ++ [⟨head, done⟩]⟩ :=
  if_pos rfl

end Outline

/-- The elements that events tell. Each has to be closed under its own name before the one around it. -/
def nodes? (events : List Event) : Option (List Node) :=
  (events.foldlM Outline.put {}).bind fun o ↦ if o.around.isEmpty then some o.done else none

section Tags

variable {name : String} {attributes : List (String × String)} {tag : Tag}

theorem decode?_attributeOf (a : String × String) : (attributeOf a).decode? = some a := by
  have hkey : decode (attributeOf a).key = .ok a.1 := decode_encode a.1
  rw [Attribute.decode?, hkey, UnitFile.text_attributeOf]
  rfl

theorem Head.ofTag?_eq (hname : tag.name = encode name)
    (htag : tag.attributeList = attributes.map attributeOf) :
    Head.ofTag? tag = some ⟨name, attributes⟩ := by
  have hall : (attributes.map attributeOf).mapM Attribute.decode? = some attributes := by
    clear htag
    induction attributes with
    | nil => rfl
    | cons a attributes ih =>
      rw [List.map_cons, List.mapM_cons, decode?_attributeOf, ih]
      rfl
  rw [Head.ofTag?, hname, decode_encode, htag, hall]
  rfl

end Tags

/-- Wherever these lines stand, they are read as these elements. -/
def Lays (lines : List Line) (nodes : List Node) : Prop :=
  ∀ events, List.Forall₂ Line.Gives lines events → ∀ o : Outline,
    events.foldlM Outline.put o = some ⟨o.around, o.done ++ nodes⟩

namespace Lays

variable {name : String} {attributes : List (String × String)} {lines lines' : List Line}
  {nodes nodes' : List Node}

theorem nil : Lays [] [] := by
  intro events hgives o
  cases hgives
  rw [List.append_nil]
  rfl

theorem append (h : Lays lines nodes) (h' : Lays lines' nodes') :
    Lays (lines ++ lines') (nodes ++ nodes') := by
  intro events hgives o
  obtain ⟨first, later, rfl, hfirst, hlater⟩ := UnitFile.exists_append hgives
  rw [List.foldlM_append, h first hfirst o]
  change later.foldlM Outline.put ⟨o.around, o.done ++ nodes⟩ = _
  rw [h' later hlater, List.append_assoc]

theorem flatMap {α : Type} {f : α → List Line} {g : α → Node} (l : List α)
    (h : ∀ a, Lays (f a) [g a]) : Lays (l.flatMap f) (l.map g) := by
  induction l with
  | nil => exact nil
  | cons a l ih => exact (h a).append ih

theorem single : Lays [.single name attributes] [⟨⟨name, attributes⟩, []⟩] := by
  intro events hgives o
  cases hgives with
  | cons he hnil =>
    cases hnil
    cases he with
    | single hname htag =>
      rw [List.foldlM_cons, Outline.put, Head.ofTag?_eq hname htag]
      rfl

theorem element (h : Lays lines nodes) :
    Lays (.opening name attributes :: (lines ++ [.closing name])) [⟨⟨name, attributes⟩, nodes⟩] := by
  -- The closing tag comes when all that was told since the opening tag stands in the element.
  intro events hgives o
  cases hgives with
  | cons he hrest =>
    obtain ⟨inner, last, rfl, hinner, hlast⟩ := UnitFile.exists_append hrest
    cases hlast with
    | cons he' hnil =>
      cases hnil
      cases he'
      cases he with
      | opening hname htag =>
        rw [List.foldlM_cons, Outline.put, Head.ofTag?_eq hname htag]
        change (inner ++ [Event.closed (encode name)]).foldlM Outline.put
          ⟨(⟨name, attributes⟩, o.done) :: o.around, []⟩ = _
        rw [List.foldlM_append, h inner hinner]
        change Outline.close ⟨(⟨name, attributes⟩, o.done) :: o.around, nodes⟩ (encode name) >>= pure = _
        rw [Outline.close_eq ⟨name, attributes⟩]
        rfl

theorem nodes?_eq {events : List Event} (h : Lays lines nodes)
    (hgives : List.Forall₂ Line.Gives lines events) : nodes? events = some nodes := by
  rw [nodes?, h events hgives]
  rfl

end Lays

end Markup

open Markup Text

def idNodes (element : String) (ids : List Symbol) : List Node :=
  ids.map fun id ↦ ⟨⟨element, [("id", id)]⟩, []⟩

namespace LinkUnit

def head (u : LinkUnit) : UnitFile.UnitHead :=
  { name := u.name, modified := u.modified, size := u.size, optimizedSize := u.optimizedSize }

def node (u : LinkUnit) : Node :=
  ⟨⟨"script", u.head.attributes⟩,
    idNodes "def" u.defs ++ idNodes "pre" u.pres ++ idNodes "dep" u.deps⟩

end LinkUnit

/-- The element of a report on these units and symbols. -/
def reportNode (seen : List LinkUnit) (exts missing : List Symbol) : Node :=
  ⟨⟨"report", []⟩,
    [⟨⟨"scripts", []⟩, seen.map LinkUnit.node⟩,
      ⟨⟨"external-defs", []⟩, idNodes "ext" exts ++ idNodes "missing" missing⟩]⟩

theorem LinkUnit.reportAttributes_eq (u : LinkUnit) : u.reportAttributes = u.head.attributes := by
  have hknown (key : String) (o : Option UInt64) :
      (o.map fun n ↦ (key, n.toNat.repr)).toList = o.toList.map fun n ↦ (key, toString n) := by
    cases o <;> rfl
  simp [reportAttributes, UnitFile.UnitHead.attributes, head, hknown]

theorem lays_idLines (element : String) (ids : List Symbol) :
    Lays (idLines element ids) (idNodes element ids) := by
  rw [idLines, List.map_eq_flatMap]
  exact .flatMap ids fun _ ↦ .single

theorem LinkUnit.lays_reportLines (u : LinkUnit) : Lays u.reportLines [u.node] := by
  rw [reportLines, reportAttributes_eq]
  exact .element (((lays_idLines _ _).append (lays_idLines _ _)).append (lays_idLines _ _))

theorem State.lays_reportLines (s : State) :
    Lays s.reportLines [reportNode s.order s.usedExternals.toList s.missing.toList] := by
  have hscripts : Lays (.opening "scripts" [] :: (_ ++ [.closing "scripts"])) _ :=
    .element (.flatMap s.order LinkUnit.lays_reportLines)
  have hexternals : Lays (.opening "external-defs" [] :: (_ ++ [.closing "external-defs"])) _ :=
    .element ((lays_idLines "ext" s.usedExternals.toList).append
      (lays_idLines "missing" s.missing.toList))
  have hreport : Lays (.opening "report" [] :: (_ ++ [.closing "report"])) _ :=
    .element (hscripts.append hexternals)
  simpa [reportLines, reportNode] using hreport

theorem clear_of_mem_idLines {element : String} {ids : List Symbol} {line : Line}
    (helement : IsTagName element) (h : line ∈ idLines element ids) : line.Clear := by
  have hid : IsKey "id" := by decide
  obtain ⟨id, -, rfl⟩ := List.mem_map.1 h
  refine ⟨helement, fun a ha ↦ ?_⟩
  rw [List.mem_singleton.1 ha]
  exact hid

theorem LinkUnit.clear_of_mem_reportLines {u : LinkUnit} {line : Line} (h : line ∈ u.reportLines) :
    line.Clear := by
  simp only [reportLines, List.mem_cons, List.mem_append, List.not_mem_nil, or_false] at h
  rcases h with rfl | ((h | h) | h) | rfl
  · refine ⟨by decide, fun a ha ↦ ?_⟩
    rw [reportAttributes_eq] at ha
    exact UnitFile.UnitHead.isKey_of_mem ha
  · exact clear_of_mem_idLines (by decide) h
  · exact clear_of_mem_idLines (by decide) h
  · exact clear_of_mem_idLines (by decide) h
  · rw [Line.Clear]
    decide

theorem State.clear_reportLines (s : State) : ∀ line ∈ s.reportLines, line.Clear := by
  have hopening {name : String} (hname : IsTagName name) : (Line.opening name []).Clear :=
    ⟨hname, by simp⟩
  have hclosing {name : String} (hname : IsTagName name) : (Line.closing name).Clear := hname
  intro line h
  simp only [reportLines, List.mem_cons, List.mem_append, List.not_mem_nil, or_false] at h
  rcases h with (((((rfl | rfl) | h) | rfl | rfl) | h) | h) | rfl | rfl
  · exact hopening (by decide)
  · exact hopening (by decide)
  · obtain ⟨u, -, hline⟩ := List.mem_flatMap.1 h
    exact u.clear_of_mem_reportLines hline
  · exact hclosing (by decide)
  · exact hopening (by decide)
  · exact clear_of_mem_idLines (by decide) h
  · exact clear_of_mem_idLines (by decide) h
  · exact hclosing (by decide)
  · exact hclosing (by decide)

theorem State.report_arriving (s : State) (d : Delivery) :
    ∃ events, Document.arriving d (encode s.report) = ⟨events, none⟩ ∧
      nodes? events = some [reportNode s.order s.usedExternals.toList s.missing.toList] := by
  obtain ⟨events, hdocument, hgives⟩ := print_arriving s.clear_reportLines d
  exact ⟨events, hdocument, s.lays_reportLines.nodes?_eq hgives⟩

section Telling

variable {seen seen' : List LinkUnit} {exts exts' missing missing' : List Symbol}

def valuesIn (element : String) (nodes : List Node) : List String :=
  (nodes.filter (·.head.name = element)).flatMap fun n ↦ n.head.attributes.map Prod.snd

@[simp] theorem valuesIn_append (element : String) (nodes nodes' : List Node) :
    valuesIn element (nodes ++ nodes') = valuesIn element nodes ++ valuesIn element nodes' := by
  simp [valuesIn]

@[simp] theorem valuesIn_idNodes (element element' : String) (ids : List Symbol) :
    valuesIn element (idNodes element' ids) = if element' = element then ids else [] := by
  induction ids with
  | nil => simp [valuesIn, idNodes]
  | cons id ids ih =>
    have hcons : idNodes element' (id :: ids) = idNodes element' [id] ++ idNodes element' ids := rfl
    rw [hcons, valuesIn_append, ih]
    by_cases h : element' = element <;> simp [valuesIn, idNodes, Node.head, h]

theorem UnitFile.UnitHead.attributes_injective : Function.Injective UnitHead.attributes := by
  intro head head' h
  -- Attributes can be written in a tag, and the head is read off the tag.
  have hwritten := AttributesWritten.print fun a (ha : a ∈ head.attributes) ↦ isKey_of_mem ha
  have htag : Tag.attributeList ⟨[], _⟩ = head.attributes.map attributeOf := hwritten.attributesOf_eq
  have hhead := UnitHead.ofTag_eq htag (.self _ _)
  have hhead' := UnitHead.ofTag_eq (htag.trans (congrArg _ h)) (.self _ _)
  exact Except.ok.inj (hhead.symm.trans hhead')

theorem LinkUnit.eq_of_node_eq {u v : LinkUnit} (hu : u.native = false) (hv : v.native = false)
    (h : u.node = v.node) : u = v := by
  simp only [node, Node.mk.injEq, Head.mk.injEq, true_and] at h
  obtain ⟨hattributes, hchildren⟩ := h
  have hhead := UnitFile.UnitHead.attributes_injective hattributes
  have hdefs : u.defs = v.defs := by simpa using congrArg (valuesIn "def") hchildren
  have hpres : u.pres = v.pres := by simpa using congrArg (valuesIn "pre") hchildren
  have hdeps : u.deps = v.deps := by simpa using congrArg (valuesIn "dep") hchildren
  simp only [head, UnitFile.UnitHead.mk.injEq] at hhead
  cases u
  cases v
  simp_all

theorem reportNode_inj (h : ∀ u ∈ seen, u.native = false) (h' : ∀ u ∈ seen', u.native = false) :
    reportNode seen exts missing = reportNode seen' exts' missing' ↔
      seen = seen' ∧ exts = exts' ∧ missing = missing' := by
  constructor
  · intro heq
    simp only [reportNode, Node.mk.injEq, List.cons.injEq, true_and, and_true] at heq
    obtain ⟨hscripts, hexternals⟩ := heq
    have hexts : exts = exts' := by simpa using congrArg (valuesIn "ext") hexternals
    have hmissing : missing = missing' := by simpa using congrArg (valuesIn "missing") hexternals
    refine ⟨?_, hexts, hmissing⟩
    clear hexternals hexts hmissing
    induction seen generalizing seen' with
    | nil => exact (List.map_eq_nil_iff.1 hscripts.symm).symm
    | cons u seen ih =>
      cases seen' with
      | nil => cases hscripts
      | cons v seen' =>
        rw [List.map_cons, List.map_cons, List.cons.injEq] at hscripts
        rw [List.forall_mem_cons] at h h'
        rw [LinkUnit.eq_of_node_eq h.1 h'.1 hscripts.1, ih h.2 h'.2 hscripts.2]
  · rintro ⟨rfl, rfl, rfl⟩
    rfl

end Telling

namespace State

variable {s t : State} {seen : List LinkUnit} {exts exts' missing missing' : List Symbol}

/-- The state came to be by calls after it was built, which visited these units. -/
def InUse (seen : List LinkUnit) (s : State) : Prop :=
  ∃ units extdefs includes sink s₀, State.build units extdefs includes sink = .ok s₀ ∧
    Session (fun _ ↦ True) s₀ seen s

namespace InUse

theorem order (h : InUse seen s) : s.order = seen := by
  obtain ⟨units, extdefs, includes, sink, s₀, hbuild, hs⟩ := h
  obtain ⟨-, horder, -⟩ := hs.sound (sound_of_build hbuild)
  rw [horder, (fresh_of_build hbuild).order, List.nil_append]

theorem not_native (h : InUse seen s) : ∀ u ∈ seen, u.native = false := by
  intro u hu
  rw [← h.order] at hu
  obtain ⟨units, extdefs, includes, sink, s₀, hbuild, hs⟩ := h
  obtain ⟨hsound, -, -⟩ := hs.sound (sound_of_build hbuild)
  exact hsound.linked u (hsound.active u hu)

end InUse

/-- The symbols left unresolved, in increasing order: those that are external, and the others. -/
structure Divides (s : State) (exts missing : List Symbol) : Prop where
  exts_sorted : exts.Pairwise (· < ·)
  missing_sorted : missing.Pairwise (· < ·)
  mem_exts : ∀ name, name ∈ exts ↔ name ∈ s.extdefs ∧ ∃ sink ∈ s.unresolved, name ∈ sink
  mem_missing : ∀ name, name ∈ missing ↔ name ∉ s.extdefs ∧ ∃ sink ∈ s.unresolved, name ∈ sink

theorem divides (s : State) : s.Divides s.usedExternals.toList s.missing.toList := by
  have hsink (name : Symbol) : name ∈ s.unresolved.getD ∅ ↔ ∃ sink ∈ s.unresolved, name ∈ sink := by
    cases s.unresolved <;> simp
  refine ⟨s.usedExternals.sorted, s.missing.sorted, fun name ↦ ?_, fun name ↦ ?_⟩
  · rw [SymbolSet.mem_toList, mem_usedExternals, hsink]
  · rw [SymbolSet.mem_toList, State.mem_missing, hsink, and_comm]

theorem Divides.unique (h : s.Divides exts missing) (h' : s.Divides exts' missing') :
    exts = exts' ∧ missing = missing' := by
  constructor
  · apply SymbolSet.eq_of_pairwise h.exts_sorted h'.exts_sorted
    intro name
    rw [h.mem_exts, h'.mem_exts]
  · apply SymbolSet.eq_of_pairwise h.missing_sorted h'.missing_sorted
    intro name
    rw [h.mem_missing, h'.mem_missing]

theorem reportNode_congr (h : s.report = t.report) :
    reportNode s.order s.usedExternals.toList s.missing.toList =
      reportNode t.order t.usedExternals.toList t.missing.toList := by
  obtain ⟨events, hdocument, hnodes⟩ := s.report_arriving .whole
  obtain ⟨events', hdocument', hnodes'⟩ := t.report_arriving .whole
  rw [h, hdocument'] at hdocument
  cases hdocument
  rw [hnodes'] at hnodes
  exact (List.cons.inj (Option.some.inj hnodes)).1.symm

/-- The report of a state in use is text that reads back, however it arrives, as one element that tells the units
visited and the symbols left unresolved. So the reports of two states are the same only if all of this is. -/
theorem report_tells_all (hs : InUse seen s) :
    ∃ exts missing, s.Divides exts missing ∧ decode (encode s.report) = .ok s.report ∧
      (∀ d, ∃ events, Document.arriving d (encode s.report) = ⟨events, none⟩ ∧
        nodes? events = some [reportNode seen exts missing]) ∧
      ∀ seen' t exts' missing', InUse seen' t → t.Divides exts' missing' →
        (s.report = t.report ↔ seen = seen' ∧ exts = exts' ∧ missing = missing') := by
  refine ⟨s.usedExternals.toList, s.missing.toList, s.divides, decode_encode _, ?_, ?_⟩
  · intro d
    rw [← hs.order]
    exact s.report_arriving d
  · intro seen' t exts' missing' ht hdivides
    obtain ⟨rfl, rfl⟩ := hdivides.unique t.divides
    constructor
    · intro heq
      have hnode := reportNode_congr heq
      rw [hs.order, ht.order] at hnode
      exact (reportNode_inj hs.not_native ht.not_native).1 hnode
    · rintro ⟨hseen, hexts, hmissing⟩
      rw [report, report, reportLines, reportLines, hs.order, ht.order, hseen, hexts, hmissing]

end State

namespace Peculiar

open State

def main : LinkUnit :=
  { name := "a\"<b>\n", defs := ["é&'"], deps := ["/>", "]]>"], modified := some 18446744073709551615 }

def fresh : State :=
  { contexts := [{ unit := main }]
    extdefs := .ofList ["/>"]
    unresolved := some ∅ }

def linked : State := (fresh.traverse { allowExternal := true } (some ["é&'"])).state

theorem inUse_fresh : InUse [] fresh := ⟨[main], .ofList ["/>"], ∅, some ∅, fresh, rfl, .start⟩

theorem inUse_linked : InUse [main] linked := by
  have hvisits : (fresh.traverse { allowExternal := true } (some ["é&'"])).visits = [main] := by
    decide +kernel
  have hs : Session (fun _ ↦ True) fresh ([] ++ _) linked :=
    .traverse { allowExternal := true } (some ["é&'"]) .start trivial
  rw [hvisits] at hs
  exact ⟨[main], .ofList ["/>"], ∅, some ∅, fresh, rfl, hs⟩

theorem divides_linked : linked.Divides ["/>"] ["]]>"] := by
  have hexts : linked.usedExternals.toList = ["/>"] := by decide +kernel
  have hmissing : linked.missing.toList = ["]]>"] := by decide +kernel
  have h := linked.divides
  rwa [hexts, hmissing] at h

theorem main_is_told_from_nothing :
    InUse [main] linked ∧ InUse [] fresh ∧ linked.Divides ["/>"] ["]]>"] ∧
      (∃ events, Document.arriving (.blocks 4 (encode linked.report).length) (encode linked.report) =
          ⟨events, none⟩ ∧ nodes? events = some [reportNode [main] ["/>"] ["]]>"]]) ∧
      linked.report ≠ fresh.report := by
  obtain ⟨exts, missing, hdivides, -, hreads, hsame⟩ := report_tells_all inUse_linked
  obtain ⟨rfl, rfl⟩ := hdivides.unique divides_linked
  have hne : linked.report ≠ fresh.report := by
    intro heq
    have hseen := ((hsame [] fresh _ _ inUse_fresh fresh.divides).1 heq).1
    cases hseen
  exact ⟨inUse_linked, inUse_fresh, divides_linked, hreads (.blocks 4 (encode linked.report).length), hne⟩

end Peculiar

end LinkOrder
