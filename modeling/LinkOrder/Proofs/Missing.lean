import LinkOrder.Link.Report
import LinkOrder.Proofs.Lifetime

namespace LinkOrder

theorem mem_idLines {element element' : String} {ids : List Symbol} {name : Symbol} :
    Markup.Line.single element [("id", name)] ∈ idLines element' ids ↔
      element = element' ∧ name ∈ ids := by
  rw [idLines, List.mem_map]
  constructor
  · rintro ⟨id, hid, heq⟩
    cases heq
    exact ⟨rfl, hid⟩
  · rintro ⟨rfl, hname⟩
    exact ⟨name, hname, rfl⟩

theorem LinkUnit.mem_reportLines {u : LinkUnit} {element : String} {name : Symbol}
    (h : Markup.Line.single element [("id", name)] ∈ u.reportLines) :
    element = "def" ∨ element = "pre" ∨ element = "dep" := by
  simp only [reportLines, List.mem_cons, List.mem_append, mem_idLines, reduceCtorEq,
    List.not_mem_nil, or_false, false_or] at h
  tauto

namespace State

variable {s t : State} {policy : Policy} {name : Symbol} {u : LinkUnit} {M : Symbol → Prop}

/-- The report lists the symbol in an element of that name. -/
def Lists (s : State) (element : String) (name : Symbol) : Prop :=
  .single element [("id", name)] ∈ s.reportLines

theorem mem_usedExternals :
    name ∈ s.usedExternals ↔ name ∈ s.extdefs ∧ name ∈ s.unresolved.getD ∅ := by
  simp [usedExternals]

theorem mem_missing : name ∈ s.missing ↔ name ∈ s.unresolved.getD ∅ ∧ name ∉ s.extdefs := by
  simp [missing]

theorem lists_iff {element : String} (h : element ≠ "def" ∧ element ≠ "pre" ∧ element ≠ "dep") :
    s.Lists element name ↔
      element = "ext" ∧ name ∈ s.usedExternals ∨ element = "missing" ∧ name ∈ s.missing := by
  have hunits : Markup.Line.single element [("id", name)] ∉ s.order.flatMap LinkUnit.reportLines := by
    intro hmem
    obtain ⟨u, -, hu⟩ := List.mem_flatMap.1 hmem
    have := LinkUnit.mem_reportLines hu
    tauto
  simp only [Lists, reportLines, List.mem_append, List.mem_cons, mem_idLines, hunits, reduceCtorEq,
    List.not_mem_nil, or_false, false_or, SymbolSet.mem_toList]

theorem lists_ext_iff : s.Lists "ext" name ↔ name ∈ s.extdefs ∧ name ∈ s.unresolved.getD ∅ := by
  rw [lists_iff (by decide), ← mem_usedExternals]
  simp

theorem lists_missing_iff :
    s.Lists "missing" name ↔ name ∈ s.unresolved.getD ∅ ∧ name ∉ s.extdefs := by
  rw [lists_iff (by decide), ← mem_missing]
  simp

theorem Tally.lists_ext (h : s.Tally policy M t) (howner : s.owner? name = some u)
    (hnative : u.native = false) (hname : name ∈ t.unresolved.getD ∅) :
    name ∈ s.unresolved.getD ∅ ∨ t.Lists "ext" name := by
  refine ((h.unresolved name).1 hname).imp_right ?_
  rintro ⟨-, -, hres⟩
  have he : policy.allowExternal ∧ name ∈ s.extdefs := by
    by_contra he
    exact hres u ⟨he, howner, hnative⟩
  exact lists_ext_iff.2 ⟨h.agrees.extdefs he.1 ▸ he.2, hname⟩

end State

theorem Session.exists_lists_ext {accepted : Outcome → Prop} {s₀ s : State} {seen : List LinkUnit}
    {name : Symbol} {u : LinkUnit} (h₀ : s₀.Sound) (hsink : s₀.unresolved = some ∅)
    (howner : s₀.owner? name = some u) (hnative : u.native = false)
    (h : Session accepted s₀ seen s) (hname : name ∈ s.unresolved.getD ∅) :
    ∃ seen₁ s₁ seen₂, Session accepted s₀ seen₁ s₁ ∧ Session accepted s₁ seen₂ s ∧
      s₁.Lists "ext" name := by
  -- The call that recorded the symbol left behind a state with the symbol still external.
  induction h with
  | start =>
    rw [hsink, Option.getD_some] at hname
    cases hname
  | @resolve seen s policy name' hs ih =>
    obtain ⟨-, -, hcont⟩ := hs.sound h₀
    have howner' := (State.owner?_congr hcont.units name).trans howner
    rcases (State.Tally.resolve policy s name').lists_ext howner' hnative hname with hold | hnew
    · obtain ⟨seen₁, s₁, seen₂, h₁, h₂, hext⟩ := ih hold
      exact ⟨seen₁, s₁, seen₂, h₁, h₂.resolve policy name', hext⟩
    · exact ⟨_, _, _, hs.resolve policy name', .start, hnew⟩
  | @traverse seen s policy start hs haccepted ih =>
    obtain ⟨hsound, -, hcont⟩ := hs.sound h₀
    obtain ⟨M, htally⟩ := State.exists_tally hsound.idle policy start
    have howner' := (State.owner?_congr hcont.units name).trans howner
    rcases htally.lists_ext howner' hnative hname with hold | hnew
    · obtain ⟨seen₁, s₁, seen₂, h₁, h₂, hext⟩ := ih hold
      exact ⟨seen₁, s₁, _, h₁, h₂.traverse policy start haccepted, hext⟩
    · exact ⟨_, _, _, hs.traverse policy start haccepted, .start, hnew⟩

/-- A report calls a definition of a visited unit missing if and only if an earlier report had it as an external
that the link depends on, and it is not external any more. -/
theorem missing_iff_external_before {accepted : Outcome → Prop} {units seen : List LinkUnit}
    {extdefs includes : SymbolSet} {s₀ s : State} {u : LinkUnit} {name : Symbol}
    (hbuild : State.build units extdefs includes (some ∅) = .ok s₀)
    (hs : Session accepted s₀ seen s) (hu : u ∈ s.order) (hname : name ∈ u.defs) :
    s.Lists "missing" name ↔ name ∉ s.extdefs ∧
      ∃ seen₁ s₁ seen₂, Session accepted s₀ seen₁ s₁ ∧ Session accepted s₁ seen₂ s ∧
        s₁.Lists "ext" name := by
  have h₀ := State.sound_of_build hbuild
  obtain ⟨hsound, -, hcont⟩ := hs.sound h₀
  have hunit : u ∈ s₀.units := hcont.units ▸ (hsound.mem_order_iff.1 hu).1
  have howner := State.owner?_of_build hbuild hunit hname
  have hnative := hsound.linked u (hsound.active u hu)
  have hsink : s₀.unresolved = some ∅ := by rw [State.eq_of_build hbuild]
  rw [State.lists_missing_iff]
  constructor
  · rintro ⟨hunres, hext⟩
    exact ⟨hext, hs.exists_lists_ext h₀ hsink howner hnative hunres⟩
  · rintro ⟨hext, seen₁, s₁, seen₂, h₁, h₂, hlists⟩
    obtain ⟨hsound₁, -, -⟩ := h₁.sound h₀
    obtain ⟨-, -, hcont₁⟩ := h₂.sound hsound₁
    exact ⟨hcont₁.unresolved name (State.lists_ext_iff.1 hlists).2, hext⟩

namespace Demotion

def main : LinkUnit := { name := "main", defs := ["main"], deps := ["ext"] }

def ext : LinkUnit := { name := "ext", defs := ["ext"] }

def fresh : State :=
  { contexts := [main, ext].map ({ unit := · })
    extdefs := .ofList ["ext"]
    unresolved := some ∅ }

def deferred : State := (fresh.traverse { allowExternal := true } (some ["main"])).state

def linked : State := (deferred.traverse {} (some ["ext"])).state

theorem build_eq_fresh : State.build [main, ext] (.ofList ["ext"]) ∅ (some ∅) = .ok fresh := rfl

theorem session_linked : Session (·.error = none) fresh [main, ext] linked := by
  have hfirst : (fresh.traverse { allowExternal := true } (some ["main"])).visits = [main] := by
    decide +kernel
  have hsecond : (deferred.traverse {} (some ["ext"])).visits = [ext] := by decide +kernel
  have hs : Session (·.error = none) fresh ([] ++ _) deferred :=
    .traverse { allowExternal := true } (some ["main"]) .start (by decide +kernel)
  rw [hfirst] at hs
  have ht : Session (·.error = none) fresh ([main] ++ _) linked :=
    .traverse {} (some ["ext"]) hs (by decide +kernel)
  rwa [hsecond] at ht

theorem linked_ext_is_missing :
    State.build [main, ext] (.ofList ["ext"]) ∅ (some ∅) = .ok fresh ∧
      Session (·.error = none) fresh [main, ext] linked ∧
      ext ∈ linked.order ∧ "ext" ∈ ext.defs ∧ linked.Lists "missing" "ext" :=
  ⟨build_eq_fresh, session_linked, by decide +kernel, by decide,
    State.lists_missing_iff.2 (by decide +kernel)⟩

theorem ext_was_external :
    State.build [main, ext] (.ofList ["ext"]) ∅ (some ∅) = .ok fresh ∧
      Session (·.error = none) fresh [main, ext] linked ∧
      ext ∈ linked.order ∧ "ext" ∈ ext.defs ∧ "ext" ∉ linked.extdefs ∧
      ∃ seen₁ s₁ seen₂, Session (·.error = none) fresh seen₁ s₁ ∧
        Session (·.error = none) s₁ seen₂ linked ∧ s₁.Lists "ext" "ext" := by
  have hu : ext ∈ linked.order := by decide +kernel
  have hname : "ext" ∈ ext.defs := by decide
  have hmissing : linked.Lists "missing" "ext" := State.lists_missing_iff.2 (by decide +kernel)
  exact ⟨build_eq_fresh, session_linked, hu, hname,
    (missing_iff_external_before build_eq_fresh session_linked hu hname).1 hmissing⟩

end Demotion

end LinkOrder
