import VhdlWorkbench.Hierarchy.Show
import VhdlWorkbench.Proofs.Exploration
import VhdlWorkbench.Proofs.InstanceNames

/-!
The hierarchy below a unit in a workspace: the walk ends, and finds the reachable types.
-/

namespace VhdlWorkbench.Hierarchy

open List

open Design (Instance isName)

variable {found : Option (List Instance)} {path : String}
open Editor Inspect

/-- The instances that a file has for a unit. -/
def instancesIn (store : Files.Store) (file unit : String) : Except Fault (Option (List Instance)) :=
  store.read file >>= fun text => Design.instances? text unit

/-- The index names a path for a type. -/
def IndexedAt (w : Workspace) (type path : String) : Prop :=
  ∃ entry ∈ (w.index.lookup type).getD [], entry.file = path

/-- A file that the index names for a type has an architecture of it with these instances. -/
def ArchitectureIn (w : Workspace) (type file : String) (instances : List Instance) : Prop :=
  ∃ path, IndexedAt w type path ∧ file = Files.platformForm w.platform path ∧
    instancesIn w.store file type = .ok (some instances)

/-- A type has an instance in an architecture. -/
def HasInstance (w : Workspace) (type : String) (i : Instance) : Prop :=
  ∃ file instances, ArchitectureIn w type file instances ∧ i ∈ instances

/-- The instances that are kept for files agree with the files that have not changed since. -/
def Kept (store : Files.Store)
    (cache : Files.Cache (String × String × Int) (Option (List Instance))) : Prop :=
  ∀ entry ∈ cache.entries, ∀ f, store.find? entry.1.1 = some f → f.changed = entry.1.2.2 →
    instancesIn store entry.1.1 entry.1.2.1 = .ok entry.2

/-- Every indexed name has one file, which exists, and what is kept of files is right. -/
structure Readable (w : Workspace) : Prop where
  single : ∀ {type path path'}, IndexedAt w type path → IndexedAt w type path' → path = path'
  present : ∀ {type path}, IndexedAt w type path →
    ∃ f, w.store.find? (Files.platformForm w.platform path) = some f
  kept : Kept w.store w.caches.instances

/-- What a file says about a type, by the instances that it has for it. -/
def Resolution.ofFile (file : String) : Option (List Instance) → Resolution
  | some instances => .architecture file instances
  | none => .component

/-- What the index and the files say about a type. -/
def resolutionOf (w : Workspace) (type : String) : Resolution :=
  match (w.index.lookup type).getD [] with
  | [] => .unresolved
  | entry :: _ =>
    match instancesIn w.store (Files.platformForm w.platform entry.file) type with
    | .ok found => .ofFile (Files.platformForm w.platform entry.file) found
    | .error _ => .component

section Files

variable {w : Workspace} {file unit : String} {f : Files.File}

theorem kept_put {store : Files.Store}
    {cache : Files.Cache (String × String × Int) (Option (List Instance))} (kept : Kept store cache)
    (read : instancesIn store file unit = .ok found) (time : Int) : Kept store (cache.put (file, unit, time) found) := by
  intro entry member
  rcases mem_cons.mp (mem_of_mem_take member) with rfl | old
  · exact fun _ _ _ => read
  · exact kept entry (mem_of_mem_filter old)

theorem yields_changedAt (there : w.store.find? file = some f) : Act.Yields (changedAt file) w f.changed w := by
  refine Act.yields_bind.mpr ⟨w, w, Act.yields_get.mpr ⟨rfl, rfl⟩, ?_⟩
  simp only [there]
  exact Act.yields_pure.mpr ⟨rfl, rfl⟩

theorem yields_instancesInFile (there : w.store.find? file = some f) (kept : Kept w.store w.caches.instances)
    (read : instancesIn w.store file unit = .ok found) : ∃ cache, Kept w.store cache ∧
      Act.Yields (instancesInFile file unit) w found
        { w with caches := { w.caches with instances := cache } } := by
  refine ⟨_, kept_put kept read f.changed, ?_⟩
  refine Act.yields_bind.mpr ⟨f.changed, w, yields_changedAt there, ?_⟩
  refine Act.yields_bind.mpr ⟨w, w, Act.yields_get.mpr ⟨rfl, rfl⟩, ?_⟩
  cases at_hand : w.caches.instances.find? (file, unit, f.changed) with
  | some answer =>
    have right := kept _ (Table.mem_of_lookup at_hand) f there rfl
    obtain rfl : found = answer := Except.ok.inj (read.symm.trans right)
    simp only
    refine Act.yields_bind.mpr ⟨found, w, Act.yields_pure.mpr ⟨rfl, rfl⟩, ?_⟩
    exact Act.yields_bind.mpr ⟨(), _, Act.yields_modify.mpr rfl, Act.yields_pure.mpr ⟨rfl, rfl⟩⟩
  | none =>
    obtain ⟨text, opened, given⟩ := bind_eq_ok.mp read
    simp only
    refine Act.yields_bind.mpr ⟨text, w, ?_, Act.yields_bind.mpr ⟨found, w, ?_, ?_⟩⟩
    · exact Act.yields_bind.mpr ⟨w, w, Act.yields_get.mpr ⟨rfl, rfl⟩, Act.yields_lift.mpr ⟨opened, rfl⟩⟩
    · exact Act.yields_lift.mpr ⟨given, rfl⟩
    · exact Act.yields_bind.mpr ⟨(), _, Act.yields_modify.mpr rfl, Act.yields_pure.mpr ⟨rfl, rfl⟩⟩

theorem instancesIn_total {store : Files.Store} (there : store.find? file = some f)
    (named : isName unit = true) : ∃ found, instancesIn store file unit = .ok found := by
  have opened : store.read file = .ok (String.ofList (Text.normalizeLineEnds f.text.toList)) := by
    rw [Files.Store.read, Files.Store.open_, there]
    rfl
  obtain ⟨found, read⟩ := Design.instances?_total _ named
  exact ⟨found, bind_eq_ok.mpr ⟨_, opened, read⟩⟩

end Files

section Resolution

variable {w : Workspace} {type : String}

theorem resolutionOf_unresolved_iff : resolutionOf w type = .unresolved ↔ ¬∃ path, IndexedAt w type path := by
  unfold resolutionOf IndexedAt
  cases (w.index.lookup type).getD [] with
  | nil => simp
  | cons entry rest =>
    simp only [mem_cons, not_exists, not_and]
    constructor
    · intro resolved
      split at resolved
      · next found _ => cases found <;> simp [Resolution.ofFile] at resolved
      · simp at resolved
    · intro none
      exact absurd rfl (none entry.file entry (Or.inl rfl))

theorem resolutionOf_architecture_iff (readable : Readable w) {file : String} {instances : List Instance} :
    resolutionOf w type = .architecture file instances ↔ ArchitectureIn w type file instances := by
  cases entries : (w.index.lookup type).getD [] with
  | nil => simp [resolutionOf, ArchitectureIn, IndexedAt, entries]
  | cons entry rest =>
    have indexed : IndexedAt w type entry.file := ⟨entry, by simp [entries], rfl⟩
    have same {path : String} (other : IndexedAt w type path) : path = entry.file :=
      readable.single other indexed
    simp only [resolutionOf, entries]
    constructor
    · intro resolved
      split at resolved
      · next found read =>
        cases found with
        | none => simp [Resolution.ofFile] at resolved
        | some own =>
          obtain ⟨rfl, rfl⟩ := Resolution.architecture.inj resolved
          exact ⟨entry.file, indexed, rfl, read⟩
      · simp at resolved
    · rintro ⟨path, other, rfl, read⟩
      rw [same other] at read ⊢
      rw [read]
      rfl

theorem resolutionOf_component_iff (readable : Readable w) : resolutionOf w type = .component ↔
      (∃ path, IndexedAt w type path) ∧ ¬∃ file instances, ArchitectureIn w type file instances := by
  simp only [← resolutionOf_architecture_iff readable]
  rw [← not_not (a := ∃ path, IndexedAt w type path), ← resolutionOf_unresolved_iff]
  cases resolutionOf w type <;> simp

theorem instances_eq_iff {r : Resolution} {instances : List Instance} (some_instance : instances ≠ []) :
    r.instances = instances ↔ ∃ file, r = .architecture file instances := by
  cases r with
  | unresolved => simp [Resolution.instances, some_instance.symm]
  | component => simp [Resolution.instances, some_instance.symm]
  | architecture file own => simp [Resolution.instances]

theorem has_resolutionOf (readable : Readable w) : Has (resolutionOf w) = HasInstance w := by
  funext type i
  simp only [Has, HasInstance, ← resolutionOf_architecture_iff readable]
  cases resolutionOf w type <;> simp [Resolution.instances]

theorem mem_index_of_resolved (known : resolutionOf w type ≠ .unresolved) : type ∈ w.index.map (·.1) := by
  rw [ne_eq, resolutionOf_unresolved_iff, not_not] at known
  obtain ⟨path, entry, member, -⟩ := known
  rw [← Table.lookup_isSome_iff]
  cases found : w.index.lookup type with
  | none => simp [found] at member
  | some entries => rfl

end Resolution

section Walk

variable {w v : Workspace} {e : Explored} {type : String}

/-- A workspace in the course of a walk: index and files are those from the beginning, what is kept of files
is right, and the files of the types with an architecture are on record. -/
structure Fits (w : Workspace) (e : Explored) (v : Workspace) : Prop where
  store : v.store = w.store
  index : v.index = w.index
  platform : v.platform = w.platform
  kept : Kept w.store v.caches.instances
  files : v.hierarchy.files = e.files

theorem eraseDups_of_same {paths : List String} (same : ∀ p ∈ paths, p = path) :
    (path :: paths).eraseDups = [path] := by
  have none : paths.filter (fun p => !p == path) = [] := by
    rw [filter_eq_nil_iff]
    intro p member
    simp [same p member]
  rw [eraseDups_cons, none, eraseDups_nil]

theorem resolveIn_step (fit : Fits w e v) {file : String}
    {f : Files.File} (form : Files.platformForm w.platform file = path)
    (there : w.store.find? path = some f) (read : instancesIn w.store path type = .ok found) :
    ∃ v', Act.Yields (resolveIn type [file]) v (.ofFile path found) v' ∧
      Fits w (e.add type (.ofFile path found)) v' := by
  have formed : Act.Yields (Act.platformForm file) v path v := by
    refine Act.yields_bind.mpr ⟨v, v, Act.yields_get.mpr ⟨rfl, rfl⟩, Act.yields_pure.mpr ⟨?_, rfl⟩⟩
    rw [fit.platform, form]
  obtain ⟨cache, kept, looked⟩ := yields_instancesInFile (w := v) (by rwa [fit.store])
    (by rw [fit.store]; exact fit.kept) (by rwa [fit.store])
  rw [fit.store] at kept
  let v₁ : Workspace := { v with caches := { v.caches with instances := cache } }
  cases found with
  | none =>
    have nothing : Act.Yields (resolveIn type []) v₁ .component v₁ := Act.yields_pure.mpr ⟨rfl, rfl⟩
    refine ⟨v₁, ?_, { fit with kept := kept }⟩
    exact Act.yields_bind.mpr ⟨path, v, formed, Act.yields_bind.mpr ⟨none, v₁, looked, nothing⟩⟩
  | some instances =>
    let v₂ : Workspace := { v₁ with
      hierarchy := { v₁.hierarchy with files := Table.put v₁.hierarchy.files type path } }
    refine ⟨v₂, Act.yields_bind.mpr ⟨path, v, formed, Act.yields_bind.mpr ⟨some instances, v₁, looked, ?_⟩⟩, ?_⟩
    · exact Act.yields_bind.mpr ⟨(), v₂, Act.yields_modify.mpr rfl, Act.yields_pure.mpr ⟨rfl, rfl⟩⟩
    · exact ⟨fit.store, fit.index, fit.platform, kept, congrArg (Table.put · type path) fit.files⟩

theorem resolve_step (readable : Readable w) (fit : Fits w e v) (named : isName type = true) :
    ∃ v', Act.Yields (resolve type) v (resolutionOf w type) v' ∧
      Fits w (e.add type (resolutionOf w type)) v' := by
  have listed : Act.Yields (Act.symbolEntries type) v ((w.index.lookup type).getD []) v := by
    rw [← fit.index]
    exact Act.yields_bind.mpr ⟨v, v, Act.yields_get.mpr ⟨rfl, rfl⟩, Act.yields_pure.mpr ⟨rfl, rfl⟩⟩
  cases entries : (w.index.lookup type).getD [] with
  | nil =>
    rw [entries] at listed
    simp only [resolutionOf, entries]
    refine ⟨v, Act.yields_bind.mpr ⟨[], v, listed, Act.yields_pure.mpr ⟨rfl, rfl⟩⟩, ?_⟩
    exact { fit with }
  | cons entry rest =>
    rw [entries] at listed
    have indexed : IndexedAt w type entry.file := ⟨entry, by simp [entries], rfl⟩
    have once : ((entry :: rest).map (·.file)).eraseDups = [entry.file] := by
      refine eraseDups_of_same fun path member => ?_
      obtain ⟨other, inside, rfl⟩ := mem_map.mp member
      exact readable.single ⟨other, by simp [entries, inside], rfl⟩ indexed
    obtain ⟨f, there⟩ := readable.present indexed
    obtain ⟨found, read⟩ := instancesIn_total there named
    obtain ⟨v', looked, fit'⟩ := resolveIn_step fit rfl there read
    simp only [resolutionOf, entries, read]
    refine ⟨v', Act.yields_bind.mpr ⟨entry :: rest, v, listed, ?_⟩, fit'⟩
    rw [← once] at looked
    exact looked

theorem resolve_answers (readable : Readable w) :
    Answers resolve (resolutionOf w) (isName · = true) (Fits w) where
  step := resolve_step readable
  closed {type} _ i member := by
    cases resolved : resolutionOf w type with
    | unresolved => simp [resolved, Resolution.instances] at member
    | component => simp [resolved, Resolution.instances] at member
    | architecture file instances =>
      obtain ⟨path, -, -, read⟩ := (resolutionOf_architecture_iff readable).mp resolved
      obtain ⟨text, -, found⟩ := bind_eq_ok.mp read
      rw [resolved] at member
      exact Design.isName_of_instances? found i member

/-- The walk through the hierarchy below a unit, which begins with no files on record, ends when nothing is
pending, within as many rounds as the index has names and two more. It finds out about the reachable types
only: which have an architecture, and where, which are only components, and which are not known. The
instances of a type are those of its architecture, if there are some; the unit at the top has the given ones
otherwise. -/
theorem walk_finds_reachable (unit : String) (given : List Instance) (view : Option Nat)
    (origin : Option String) (readable : Readable w) (named : ∀ i ∈ given, isName i.unit = true) :
    let start := { w with hierarchy := { files := [], view := view, file := origin, name := unit } }
    ∃ e w', Walks resolve given { instances := [(unit, given)] } start e w' ∧
      (∀ bound, w.index.length ≤ bound → Act.Yields (explore resolve bound unit given) start e w') ∧
      w'.hierarchy.files = e.files ∧
      (∀ type file, e.files.lookup type = some file ↔
        Reachable (HasInstance w) given type ∧ ∃ instances, ArchitectureIn w type file instances) ∧
      (∀ type, type ∈ e.components ↔
        Reachable (HasInstance w) given type ∧ (∃ path, IndexedAt w type path) ∧
          ¬∃ file instances, ArchitectureIn w type file instances) ∧
      (∀ type, type ∈ e.unresolved ↔
        Reachable (HasInstance w) given type ∧ ¬∃ path, IndexedAt w type path) ∧
      ∀ type instances, e.instances.lookup type = some instances ↔
        Reachable (HasInstance w) given type ∧ instances ≠ [] ∧
            (∃ file, ArchitectureIn w type file instances) ∨
          type = unit ∧ instances = given ∧
            ¬(Reachable (HasInstance w) given type ∧
              ∃ file own, ArchitectureIn w type file own ∧ own ≠ []) := by
  intro start
  have fit : Fits w { instances := [(unit, given)] } start := ⟨rfl, rfl, rfl, readable.kept, rfl⟩
  obtain ⟨e, w', walks, runs, fit', records⟩ :=
    explore_yields (resolve_answers readable) (fun _ => mem_index_of_resolved) named fit
  rw [has_resolutionOf readable] at records
  refine ⟨e, w', walks, fun bound room => runs bound (by simpa using room), fit'.files, ?_, ?_, ?_, ?_⟩
  · intro type file
    simp only [records.files, resolutionOf_architecture_iff readable]
  · intro type
    rw [records.components, resolutionOf_component_iff readable]
  · intro type
    rw [records.unresolved, resolutionOf_unresolved_iff]
  · intro type instances
    have own : (resolutionOf w type).instances ≠ [] ↔ ∃ file own, ArchitectureIn w type file own ∧ own ≠ [] := by
      simp only [← resolutionOf_architecture_iff readable]
      cases resolutionOf w type <;> simp [Resolution.instances]
    have listed (some_instance : instances ≠ []) :
        (resolutionOf w type).instances = instances ↔ ∃ file, ArchitectureIn w type file instances := by
      simp only [instances_eq_iff some_instance, resolutionOf_architecture_iff readable]
    rw [records.instances, own]
    refine or_congr (and_congr_right fun _ => and_congr_right listed) Iff.rfl

end Walk

/-- A workspace with an architecture that instantiates itself and a component. -/
def loopWorkspace : Workspace where
  index := [("a", [⟨"a.vhd", "a.vhd", 1, 1⟩]), ("b", [⟨"b.vhd", "b.vhd", 1, 1⟩])]
  store := ⟨[("a.vhd", ⟨"architecture r of a is\nx:entity a;\ny:entity b;\nend;", 1000⟩), ("b.vhd", ⟨"", 1000⟩)]⟩

theorem indexedAt_loop {type : String} :
    IndexedAt loopWorkspace type path ↔ type = "a" ∧ path = "a.vhd" ∨ type = "b" ∧ path = "b.vhd" := by
  by_cases first : type = "a"
  · subst first
    simp [IndexedAt, loopWorkspace, eq_comm]
  · by_cases second : type = "b"
    · subst second
      simp [IndexedAt, loopWorkspace, lookup_cons, eq_comm]
    · simp [IndexedAt, loopWorkspace, lookup_cons, beq_eq_false_iff_ne.mpr first,
        beq_eq_false_iff_ne.mpr second, first, second]

theorem readable_loop : Readable loopWorkspace where
  single left right := by
    rw [indexedAt_loop] at left right
    grind
  present indexed := by
    rcases indexedAt_loop.mp indexed with ⟨-, rfl⟩ | ⟨-, rfl⟩
    · exact ⟨_, rfl⟩
    · exact ⟨_, rfl⟩
  kept := by
    intro entry none
    exact absurd none not_mem_nil

theorem instancesIn_loop :
    instancesIn loopWorkspace.store "a.vhd" "a" = .ok (some [⟨"x", "a"⟩, ⟨"y", "b"⟩]) ∧
      instancesIn loopWorkspace.store "b.vhd" "b" = .ok none := by
  have whole : Design.subprogramBody.replace "" (Source.withoutComments
      "architecture r of a is\nx:entity a;\ny:entity b;\nend;") =
        "architecture r of a is\nx:entity a;\ny:entity b;\nend;" := by decide +kernel
  constructor
  · show Design.instances? "architecture r of a is\nx:entity a;\ny:entity b;\nend;" "a" = _
    rw [Design.instances?, whole]
    decide +kernel
  · decide +kernel

theorem architecture_loop : ArchitectureIn loopWorkspace "a" "a.vhd" [⟨"x", "a"⟩, ⟨"y", "b"⟩] :=
  ⟨"a.vhd", indexedAt_loop.mpr (by simp), rfl, instancesIn_loop.1⟩

theorem no_architecture_loop : ¬∃ file instances, ArchitectureIn loopWorkspace "b" file instances := by
  rintro ⟨file, instances, path, indexed, form, read⟩
  obtain rfl : path = "b.vhd" := by simpa using indexedAt_loop.mp indexed
  obtain rfl : file = "b.vhd" := form
  have none : instancesIn loopWorkspace.store "b.vhd" "b" = .ok none := instancesIn_loop.2
  simp [none] at read

/-- A walk through a design that instantiates itself. -/
theorem walk_finds_reachable_loop :
    Readable loopWorkspace ∧ ∃ e w',
      Act.Yields (explore resolve 2 "top" [⟨"u", "a"⟩, ⟨"v", "c"⟩])
        { loopWorkspace with hierarchy := { file := none, name := "top" } } e w' ∧
      e.files.lookup "a" = some "a.vhd" ∧ "b" ∈ e.components ∧ "c" ∈ e.unresolved ∧
      e.instances.lookup "top" = some [⟨"u", "a"⟩, ⟨"v", "c"⟩] := by
  obtain ⟨e, w', -, runs, -, files, components, unresolved, instances⟩ :=
    walk_finds_reachable "top" [⟨"u", "a"⟩, ⟨"v", "c"⟩] none none readable_loop (by decide)
  have given (i : Instance) (member : i ∈ [(⟨"u", "a"⟩ : Instance), ⟨"v", "c"⟩]) :
      Reachable (HasInstance loopWorkspace) [⟨"u", "a"⟩, ⟨"v", "c"⟩] i.unit := .given member
  have a := given ⟨"u", "a"⟩ (by decide)
  have b : Reachable (HasInstance loopWorkspace) [⟨"u", "a"⟩, ⟨"v", "c"⟩] (Instance.mk "y" "b").unit :=
    .under a ⟨"a.vhd", _, architecture_loop, by decide⟩
  refine ⟨readable_loop, e, w', runs 2 (by decide), (files "a" "a.vhd").mpr ⟨a, _, architecture_loop⟩,
    (components "b").mpr ⟨b, ⟨"b.vhd", indexedAt_loop.mpr (by simp)⟩, no_architecture_loop⟩,
    (unresolved "c").mpr ⟨given ⟨"v", "c"⟩ (by decide), ?_⟩,
    (instances "top" _).mpr (Or.inr ⟨rfl, rfl, ?_⟩)⟩
  · rintro ⟨path, indexed⟩
    simpa using indexedAt_loop.mp indexed
  · rintro ⟨-, file, own, ⟨path, indexed, -⟩, -⟩
    simpa using indexedAt_loop.mp indexed

end VhdlWorkbench.Hierarchy
