/-
  Which modes are asked about a whole document, and in which order.

  * `Registry.Coherent`: a name stands for one mode;
  * `Registry.names_modesInDocument`: the modes of a document come in the order in which its languages
    do, the host's first;
  * `Registry.sublist_modes_iff`: when that is the order of registration;
  * `Registry.Asked`: modes that are asked in turn, with `Registry.gather_asked` for the answers;
  * `Registry.fan_out_by_language` puts these together; in `Registry.registration_order_lost` the two
    orders differ.
-/
import Mathlib
import AnnotatedJson.Proofs.Distinct
import AnnotatedJson.Service

namespace AnnotatedJson

namespace Registry

/-! ## Modes and their names -/

/-- Entries whose modes have one name have one mode. -/
def Coherent (r : Registry) : Prop :=
  ∀ e ∈ r.entries, ∀ f ∈ r.entries, e.2.name = f.2.name → e.2 = f.2

variable {r : Registry} {m : Mode} {language : String}

/-- The mode of a language is the mode of an entry. -/
theorem mem_entries_of_mode? (h : r.mode? language = some m) : ∃ e ∈ r.entries, e.2 = m := by
  obtain ⟨e, he, rfl⟩ := Option.map_eq_some_iff.1 h
  exact ⟨e, List.mem_of_find?_eq_some he, rfl⟩

/-- Where a name stands for one mode, a list of modes has the members that it had with repetitions. -/
theorem Coherent.mem_distinct_iff (hr : r.Coherent) {ms : List Mode}
    (hms : ∀ m ∈ ms, ∃ e ∈ r.entries, e.2 = m) : m ∈ distinct [] ms ↔ m ∈ ms := by
  constructor
  · intro hm
    exact (distinct_sublist [] ms).subset hm
  · intro hm
    have hname : m.name ∈ (distinct [] ms).map Mode.name := by
      rw [distinct_names, mem_freshNames]
      exact ⟨List.mem_map_of_mem hm, List.not_mem_nil⟩
    obtain ⟨m', hm', heq⟩ := List.mem_map.1 hname
    obtain ⟨e, he, rfl⟩ := hms m hm
    obtain ⟨f, hf, rfl⟩ := hms m' ((distinct_sublist [] ms).subset hm')
    rwa [hr e he f hf heq.symm]

theorem names_nodup (seen : List String) (ms : List Mode) :
    ((distinct seen ms).map Mode.name).Nodup := by
  rw [distinct_names]
  exact freshNames_nodup seen _

theorem Coherent.mem_modes_iff (hr : r.Coherent) : m ∈ r.modes ↔ ∃ e ∈ r.entries, e.2 = m := by
  have hms : ∀ m ∈ r.entries.map Prod.snd, ∃ e ∈ r.entries, e.2 = m := by
    intro m hm
    exact List.mem_map.1 hm
  rw [modes, hr.mem_distinct_iff hms, List.mem_map]

/-! ## The modes of a document -/

section
variable {d : Document} {w : Workspace} {x : RegionIndex} (hx : (Workspace.regionsOf d w).1 = x)
include hx

theorem modesInDocument_eq : (r.modesInDocument d w).1 = distinct []
    (x.languages.filterMap r.mode?) := by
  rw [← hx]
  rfl

/-- The modes of a document in the order in which their languages come up first. -/
theorem names_modesInDocument : (r.modesInDocument d w).1.map Mode.name =
    ((x.tags.filterMap r.mode?).map Mode.name).eraseDups := by
  have hmap : ∀ ls : List String, (ls.filterMap r.mode?).map Mode.name =
      ls.filterMap fun l => (r.mode? l).map Mode.name := by
    intro ls
    rw [List.map_filterMap]
  rw [modesInDocument_eq hx, distinct_names, freshNames_empty, hmap, hmap, x.languages_eq,
    eraseDups_filterMap_eraseDups]

theorem Coherent.mem_modesInDocument_iff (hr : r.Coherent) :
    m ∈ (r.modesInDocument d w).1 ↔ ∃ l ∈ x.tags, r.mode? l = some m := by
  have hregistered : ∀ m ∈ x.languages.filterMap r.mode?, ∃ e ∈ r.entries, e.2 = m := by
    intro m hm
    obtain ⟨l, -, hl⟩ := List.mem_filterMap.1 hm
    exact mem_entries_of_mode? hl
  rw [modesInDocument_eq hx, hr.mem_distinct_iff hregistered, List.mem_filterMap, x.languages_eq]
  simp only [List.mem_eraseDups]

/-- All modes of a document are registered. -/
theorem Coherent.modesInDocument_subperm (hr : r.Coherent) :
    (r.modesInDocument d w).1.Subperm r.modes := by
  have hnodup : (r.modesInDocument d w).1.Nodup := by
    rw [modesInDocument_eq hx]
    exact .of_map _ (names_nodup [] _)
  refine hnodup.subperm fun m hm => ?_
  obtain ⟨l, -, hl⟩ := (hr.mem_modesInDocument_iff hx).1 hm
  exact hr.mem_modes_iff.2 (mem_entries_of_mode? hl)

end

/-! ## The order of registration -/

/-- The place of a mode among all modes. -/
def place (r : Registry) (m : Mode) : Nat := (r.modes.map Mode.name).idxOf m.name

theorem modes_pairwise (r : Registry) : r.modes.Pairwise fun a b => r.place a < r.place b := by
  have hnodup : (r.modes.map Mode.name).Nodup := names_nodup [] _
  rw [List.pairwise_iff_getElem]
  intro i j hi hj hij
  have hplace : ∀ (k : Nat) (hk : k < r.modes.length), r.place r.modes[k] = k := by
    intro k hk
    have hidx := hnodup.idxOf_getElem k (by simpa using hk)
    rwa [List.getElem_map] at hidx
  rwa [hplace i hi, hplace j hj]

/-- Modes come in the order of registration if each has a place before the next. -/
theorem sublist_modes_iff {ms : List Mode} (h : ms.Subperm r.modes) :
    ms.Sublist r.modes ↔ ms.Pairwise fun a b => r.place a < r.place b := by
  constructor
  · intro hsub
    exact r.modes_pairwise.sublist hsub
  · intro hpair
    have hanti : Std.Antisymm fun a b : Mode => r.place a < r.place b :=
      ⟨fun a b hab hba => absurd hab hba.asymm⟩
    exact List.sublist_of_subperm_of_pairwise h hpair r.modes_pairwise

/-! ## Answers -/

/-- Asks one after the other, each in the state that the one before it left, with what each
    answered; one that fails has an empty answer. -/
inductive Asked {α β : Type} (ask : β → Action (List α)) :
    List β → Workspace → List (List α) → Workspace → Prop
  | nil {w : Workspace} : Asked ask [] w [] w
  | cons {b : β} {bs : List β} {w w' w'' : Workspace} {items : Option (List α)}
      {answers : List (List α)} (h : (ask b).settle w = (items, w'))
      (hrest : Asked ask bs w' answers w'') : Asked ask (b :: bs) w (items.getD [] :: answers) w''

/-- The answers are put together in the order of asking. -/
theorem gather_asked {α β : Type} (ask : β → Action (List α)) (bs : List β) (w : Workspace) :
    ∃ answers, Asked ask bs w answers (gather ask bs w).2 ∧
      (gather ask bs w).1 = answers.flatten := by
  induction bs generalizing w with
  | nil => exact ⟨[], .nil, rfl⟩
  | cons b bs ih =>
    obtain ⟨answers, hasked, hitems⟩ := ih ((ask b).settle w).2
    refine ⟨_, .cons rfl hasked, ?_⟩
    rw [List.flatten_cons, ← hitems]
    rfl

/-- **Requests about a whole document go to its modes by language.**  Each mode of a language in the
    document is asked once; the modes come in the order in which their languages do, the host's
    first, and their answers are put together in that order.  It is the order of registration exactly
    if no mode was registered before one that it follows. -/
theorem fan_out_by_language (r : Registry) (hr : r.Coherent) (d : Document) (w : Workspace)
    (x : RegionIndex) (hx : (Workspace.regionsOf d w).1 = x) :
    (∀ m, m ∈ (r.modesInDocument d w).1 ↔ ∃ l ∈ x.tags, r.mode? l = some m) ∧
    ((r.modesInDocument d w).1.map Mode.name).Nodup ∧
    (r.modesInDocument d w).1.Subperm r.modes ∧
    (r.modesInDocument d w).1.map Mode.name = ((x.tags.filterMap r.mode?).map Mode.name).eraseDups ∧
    ((r.modesInDocument d w).1.Sublist r.modes ↔
      (r.modesInDocument d w).1.Pairwise fun a b => r.place a < r.place b) ∧
    ∀ {α : Type} (c : Capability) (ask : Mode → Action (List α)), ∃ answers,
      Asked ask ((r.modesInDocument d w).1.filter fun m => m.supports c) (r.modesInDocument d w).2
        answers (r.askAll c d ask w).2 ∧
      (r.askAll c d ask w).1 = answers.flatten := by
  refine ⟨fun m => hr.mem_modesInDocument_iff hx, ?_, hr.modesInDocument_subperm hx,
    names_modesInDocument hx, sublist_modes_iff (hr.modesInDocument_subperm hx), ?_⟩
  · rw [modesInDocument_eq hx]
    exact names_nodup [] _
  · intro α c ask
    exact gather_asked ask _ _

/-- A text with one literal. -/
def nestedHost : Document :=
  .ofText ⟨['f', 'i', 'l', 'e'], some {}, .segments [['a', '.', 't', 's']], none, none⟩ "typescript" 1
    ['a', ' ', '=', ' ', '{', '}']

def nestedRegion : Region where
  span := ⟨4, 6⟩
  language := literalLanguage
  kind := .custom

/-- A workspace that finds the literal. -/
def nestedWorkspace : Workspace :=
  { Workspace.ofSettings {} fun uri => .error (.unsupportedSchemaUri uri) with
    findRegions := fun _ _ => [nestedRegion] }

theorem regionsOf_nestedHost :
    (Workspace.regionsOf nestedHost nestedWorkspace).1 = ⟨nestedHost, [nestedRegion]⟩ := by
  change RegionIndex.ofRegions nestedHost [nestedRegion] = _
  simp [RegionIndex.ofRegions]

/-- The host is registered first, and the literal under two tags. -/
def hostFirst : Registry :=
  ⟨[("typescript", .host), (literalLanguage, .literal), ("json", .literal)]⟩

theorem fan_out_by_language_hostFirst :
    hostFirst.Coherent ∧
    (Workspace.regionsOf nestedHost nestedWorkspace).1 = ⟨nestedHost, [nestedRegion]⟩ ∧
    (hostFirst.modesInDocument nestedHost nestedWorkspace).1.map Mode.name = ["null", "schema"] ∧
    (hostFirst.modesInDocument nestedHost nestedWorkspace).1.Sublist hostFirst.modes := by
  have hmode : ∀ e ∈ hostFirst.entries, e.2 = if e.2.name = "null" then .host else .literal := by
    intro e he
    simp only [hostFirst, List.mem_cons, List.not_mem_nil, or_false] at he
    rcases he with rfl | rfl | rfl <;> rfl
  have hcoherent : hostFirst.Coherent := by
    intro e he f hf hname
    rw [hmode e he, hmode f hf, hname]
  obtain ⟨-, -, -, hnames, horder, -⟩ :=
    fan_out_by_language hostFirst hcoherent nestedHost nestedWorkspace
    _ regionsOf_nestedHost
  have hvalue :
      (([nestedHost.language, literalLanguage].filterMap hostFirst.mode?).map Mode.name).eraseDups =
      ["null", "schema"] := by decide +kernel
  have hplaces : ((hostFirst.modesInDocument nestedHost nestedWorkspace).1.map Mode.name).Pairwise
      fun a b => (hostFirst.modes.map Mode.name).idxOf a < (hostFirst.modes.map Mode.name).idxOf b := by
    rw [hnames.trans hvalue]
    decide +kernel
  rw [List.pairwise_map] at hplaces
  exact ⟨hcoherent, regionsOf_nestedHost, hnames.trans hvalue, horder.2 hplaces⟩

/-- The modes that the program registers: the host is asked before the literals, which were
    registered before it. -/
theorem registration_order_lost :
    Registry.standard.modes.map Mode.name = ["schema", "null"] ∧
    (Registry.standard.modesInDocument nestedHost nestedWorkspace).1.map Mode.name =
      ["null", "schema"] ∧
    ¬ (Registry.standard.modesInDocument nestedHost nestedWorkspace).1.Sublist
      Registry.standard.modes := by
  have hnames : (Registry.standard.modesInDocument nestedHost nestedWorkspace).1.map Mode.name =
      ["null", "schema"] := by
    rw [names_modesInDocument regionsOf_nestedHost]
    decide +kernel
  refine ⟨rfl, hnames, ?_⟩
  intro h
  have hmap := h.map Mode.name
  rw [hnames] at hmap
  exact absurd hmap (by decide +kernel)

end Registry

end AnnotatedJson
