import GatedPipeline.Proofs.Gates.Alone

/-!
One counter for each file. In a registry that has its directory to itself, an act for one id leaves
the values of other files' ids alone, and ids that are names have a file each. Two ids of one file
share its counter: the first open of the second sets back the first.
-/

namespace GatedPipeline.Gates

open Registry (Moves)

namespace Sharing

/-- The value of an id in a registry: `-1` if the registry has not opened it. -/
def valueIn (sharing : Sharing) (number : Nat) (id : String) : Int :=
  match sharing.registries[number]? with
  | none => Gate.nothingCompleted
  | some registry => registry.valueOf sharing.storage id

def HasOpened (sharing : Sharing) (number : Nat) (id : String) : Prop :=
  ∃ registry, sharing.registries[number]? = some registry ∧ (registry.find id).isSome

theorem publishes_eq_none {sharing : Sharing} {act : Act} {id : String}
    (h : sharing.subject act ≠ some id) : sharing.publishes id act = none := by
  cases act <;> simp [publishes, h]

section Lone

variable {initial : Storage} {sharing : Sharing} {registry later : Registry} {act : Act}

theorem Lone.valueIn (h : sharing.Lone initial registry) (id : String) :
    sharing.valueIn 0 id = registry.valueOf sharing.storage id := by
  simp [Sharing.valueIn, h.only]

theorem Lone.hasOpened_iff (h : sharing.Lone initial registry) {id : String} :
    sharing.HasOpened 0 id ↔ (registry.find id).isSome := by
  simp [HasOpened, h.only]

/-- A gate that was handed out is the one that its id has. -/
theorem Lone.handed (h : sharing.Lone initial registry) {number holder : Nat} {gate : Gate}
    (hhanded : sharing.gates[number]? = some (holder, gate)) :
    registry.find gate.id = some gate :=
  Registry.find_of_mem h.alone.ids (h.held _ (List.mem_of_getElem? hhanded))

theorem Leaves.unsubjected (h : Leaves initial sharing registry act later)
    (hother : sharing.subject act = none) (id : String) :
    Moves initial id none registry sharing.storage later (sharing.act act).1.storage := by
  have hnothing : sharing.publishes id act = none := publishes_eq_none (by simp [hother])
  have hmoves := h.moves id (by simp [hother])
  rwa [hnothing] at hmoves

theorem Leaves.subjected (h : Leaves initial sharing registry act later) {id : String}
    (hown : sharing.subject act = some id) :
    Moves initial id (sharing.publishes id act) registry sharing.storage later
      (sharing.act act).1.storage :=
  h.moves id (by simp [hown])

theorem Leaves.directory (h : Leaves initial sharing registry act later) :
    later.directory = registry.directory := by
  cases hsubject : sharing.subject act with
  | none => exact (h.unsubjected hsubject "").directory
  | some id => exact (h.subjected hsubject).directory

theorem Leaves.kept (h : Leaves initial sharing registry act later) {id : String} {gate : Gate}
    (hfound : registry.find id = some gate) : later.find id = some gate := by
  cases hsubject : sharing.subject act with
  | none => exact (h.unsubjected hsubject "").kept id gate hfound
  | some other => exact (h.subjected hsubject).kept id gate hfound

/-- The values of an act's file may change, and no others. -/
theorem Leaves.apart (h : Leaves initial sharing registry act later) {id : String}
    (hother : ∀ subject ∈ sharing.subject act, ¬ OneFile initial registry.directory subject id) :
    later.valueOf (sharing.act act).1.storage id = registry.valueOf sharing.storage id := by
  cases hsubject : sharing.subject act with
  | none => exact (h.unsubjected hsubject id).own
  | some subject => exact (h.subjected hsubject).apart id (hother subject hsubject)

/-- A value falls only when another id of its file is opened for the first time. -/
theorem Leaves.falls (h : Leaves initial sharing registry act later) {id : String}
    (hfalls : later.valueOf (sharing.act act).1.storage id < registry.valueOf sharing.storage id) :
    ∃ subject, sharing.subject act = some subject ∧ subject ≠ id ∧
      OneFile initial registry.directory subject id ∧ registry.find subject = none := by
  cases hsubject : sharing.subject act with
  | none =>
      have hsame := (h.unsubjected hsubject id).own
      exact absurd hsame (Int.ne_of_lt hfalls)
  | some subject =>
      have hmoves := h.subjected hsubject
      refine ⟨subject, rfl, ?_, ?_, ?_⟩
      · rintro rfl
        have hvalue := hmoves.own
        cases hpublished : sharing.publishes subject act with
        | none =>
            rw [hpublished] at hvalue
            exact absurd hvalue (Int.ne_of_lt hfalls)
        | some index =>
            rw [hpublished] at hvalue
            have hforward := hmoves.forward index hpublished
            rw [hvalue] at hfalls
            exact Int.not_lt.mpr hforward hfalls
      · by_contra hother
        exact absurd (hmoves.apart id hother) (Int.ne_of_lt hfalls)
      · by_contra hopen
        have hagain := hmoves.again (.inl (Option.ne_none_iff_isSome.mp hopen)) id
        exact Int.not_lt.mpr hagain hfalls

/-- An act for an id that is not open names it. -/
theorem Lone.target (h : sharing.Lone initial registry) {id : String}
    (hsubject : sharing.subject act = some id) (hnew : registry.find id = none) :
    ∃ number, act.target = some (number, id) := by
  have htarget : ∀ {other : Option (Nat × String)}, other.map Prod.snd = some id →
      ∃ number, other = some (number, id) := by
    intro other hother
    obtain ⟨⟨number, _⟩, rfl, rfl⟩ := Option.map_eq_some_iff.mp hother
    exact ⟨number, rfl⟩
  cases act with
  | publishTo number index =>
      obtain ⟨handed, hhanded, rfl⟩ := Option.map_eq_some_iff.mp hsubject
      obtain ⟨holder, gate⟩ := handed
      rw [h.handed hhanded] at hnew
      cases hnew
  | register | «open» | publish | read | snapshot | readFrom | hasCompleted | same =>
      exact htarget hsubject

/-! ### Runs -/

/-- A registry alone stays so, over the same directory, and keeps what it has opened and handed
out. -/
theorem Lone.run (h : sharing.Lone initial registry) {acts : List Act}
    (hlone : ∀ act ∈ acts, act.directory = none) :
    ∃ later, (sharing.run acts).1.Lone initial later ∧ later.directory = registry.directory ∧
      (∀ id gate, registry.find id = some gate → later.find id = some gate) ∧
      sharing.gates <+: (sharing.run acts).1.gates := by
  induction acts generalizing sharing registry with
  | nil => exact ⟨registry, h, rfl, fun _ _ hfound => hfound, List.prefix_rfl⟩
  | cons act rest ih =>
      obtain ⟨next, hleaves⟩ := h.act (hlone act List.mem_cons_self)
      obtain ⟨later, hlater, hdirectory, hkept, hhanded⟩ :=
        ih hleaves.lone fun act hact => hlone act (List.mem_cons_of_mem _ hact)
      exact ⟨later, hlater, hdirectory.trans hleaves.directory,
        fun id gate hfound => hkept id gate (hleaves.kept hfound),
        hleaves.handed.trans hhanded⟩

/-- While no other id of its file is opened for the first time, a value never falls. -/
theorem Lone.rises (h : sharing.Lone initial registry) {acts : List Act}
    (hlone : ∀ act ∈ acts, act.directory = none) {id : String}
    (hown : ∀ act ∈ acts, ∀ target ∈ act.target,
      OneFile initial registry.directory target.2 id →
        target.2 = id ∨ (registry.find target.2).isSome) :
    sharing.valueIn 0 id ≤ (sharing.run acts).1.valueIn 0 id := by
  induction acts generalizing sharing registry with
  | nil => exact Int.le_refl _
  | cons act rest ih =>
      obtain ⟨next, hleaves⟩ := h.act (hlone act List.mem_cons_self)
      have hstep : sharing.valueIn 0 id ≤ (sharing.act act).1.valueIn 0 id := by
        rw [h.valueIn, hleaves.lone.valueIn]
        by_contra hfalls
        obtain ⟨subject, hsubject, hother, hfile, hnew⟩ := hleaves.falls (Int.not_le.mp hfalls)
        obtain ⟨number, htarget⟩ := h.target hsubject hnew
        rcases hown act List.mem_cons_self _ htarget hfile with hsame | hopen
        · exact hother hsame
        · rw [hnew] at hopen
          cases hopen
      refine Int.le_trans hstep (ih hleaves.lone
        (fun act hact => hlone act (List.mem_cons_of_mem _ hact)) ?_)
      intro act hact target htarget hfile
      rw [hleaves.directory] at hfile
      rcases hown act (List.mem_cons_of_mem _ hact) target htarget hfile with hsame | hopen
      · exact .inl hsame
      · obtain ⟨gate, hgate⟩ := Option.isSome_iff_exists.mp hopen
        exact .inr (by rw [hleaves.kept hgate]; rfl)

end Lone

end Sharing

/-- A registry over `directory` that had the files `initial` to itself from the start, after some
acts. Ids stand for files: by `apart` an act on one id leaves the ids of all other files at their
values, by `names` different ids without a slash have different files, and by `together` open ids of
one file have one value. The exception to monotonicity is `reset`, where the first open of an id
sets back the other open ids of the same file. By `forward` the value of an id never decreases while
no such open happens. -/
structure Filed (initial : Storage) (directory : String) (sharing : Sharing) : Prop where
  reads : ∀ id, sharing.HasOpened 0 id →
    sharing.act (.read 0 id) = (sharing, .value (sharing.valueIn 0 id))
  handed : ∀ number holder gate, sharing.gates[number]? = some (holder, gate) →
    sharing.HasOpened 0 gate.id ∧
      (sharing.act (.readFrom number)).2 = .value (sharing.valueIn 0 gate.id)
  apart : ∀ act id, act.directory = none →
    (∀ subject ∈ sharing.subject act, ¬ OneFile initial directory subject id) →
      (sharing.act act).1.valueIn 0 id = sharing.valueIn 0 id
  names : ∀ one other : String, '/' ∉ one.toList → '/' ∉ other.toList →
    OneFile initial directory one other → one = other
  own : ∀ act id, act.directory = none → sharing.subject act = some id →
    (sharing.act act).1.valueIn 0 id = (sharing.publishes id act).getD (sharing.valueIn 0 id)
  together : ∀ one other, OneFile initial directory one other → sharing.HasOpened 0 one →
    sharing.HasOpened 0 other → sharing.valueIn 0 one = sharing.valueIn 0 other
  reset : ∀ act one other, act.directory = none → sharing.subject act = some one →
    ¬ sharing.HasOpened 0 one → (sharing.act act).1.HasOpened 0 one →
      OneFile initial directory one other → sharing.HasOpened 0 other →
        (sharing.act act).1.valueIn 0 other =
          (sharing.publishes one act).getD Gate.nothingCompleted
  forward : ∀ acts id, (∀ act ∈ acts, act.directory = none) →
    (∀ act ∈ acts, ∀ target ∈ act.target, OneFile initial directory target.2 id →
      target.2 = id ∨ sharing.HasOpened 0 target.2) →
        sharing.valueIn 0 id ≤ (sharing.run acts).1.valueIn 0 id

namespace Sharing

variable {initial : Storage} {sharing : Sharing} {registry : Registry}

theorem Lone.reset (h : sharing.Lone initial registry) {act : Act} (hact : act.directory = none)
    {one other : String} (hsubject : sharing.subject act = some one)
    (hclosed : ¬ sharing.HasOpened 0 one) (hopened : (sharing.act act).1.HasOpened 0 one)
    (hfile : OneFile initial registry.directory one other) (hother : sharing.HasOpened 0 other) :
    (sharing.act act).1.valueIn 0 other =
      (sharing.publishes one act).getD Gate.nothingCompleted := by
  obtain ⟨later, hleaves⟩ := h.act hact
  rw [h.hasOpened_iff] at hclosed hother
  rw [hleaves.lone.hasOpened_iff] at hopened
  obtain ⟨gate, hgate⟩ := Option.isSome_iff_exists.mp hother
  have hkept : (later.find other).isSome := by
    rw [hleaves.kept hgate]
    rfl
  have hnew : registry.find one = none := by simpa using hclosed
  calc (sharing.act act).1.valueIn 0 other
      = later.valueOf (sharing.act act).1.storage other := hleaves.lone.valueIn other
    _ = later.valueOf (sharing.act act).1.storage one :=
        (hleaves.lone.alone.together (hleaves.directory ▸ hfile) hopened hkept).symm
    _ = (sharing.publishes one act).getD (registry.valueOf sharing.storage one) :=
        (hleaves.subjected hsubject).own
    _ = (sharing.publishes one act).getD Gate.nothingCompleted := by
        rw [Registry.valueOf_absent hnew]

theorem Lone.filed (h : sharing.Lone initial registry) :
    Filed initial registry.directory sharing := by
  constructor
  case reads =>
    intro id hopen
    obtain ⟨gate, hgate⟩ := Option.isSome_iff_exists.mp (h.hasOpened_iff.mp hopen)
    have hregistry : sharing.registries[0]? = some registry := by
      rw [h.only]
      rfl
    simp only [h.act_eq, perform, Sharing.read, Registry.read, Registry.openOn_found hgate,
      hregistry,
      set_same hregistry, h.valueIn, Registry.valueOf_found hgate]
  case handed =>
    intro number holder gate hhanded
    have hgate := h.handed hhanded
    refine ⟨h.hasOpened_iff.mpr (by rw [hgate]; rfl), ?_⟩
    simp only [h.act_eq, perform, readFrom, hhanded, h.valueIn, Registry.valueOf_found hgate]
  case apart =>
    intro act id hact hother
    obtain ⟨later, hleaves⟩ := h.act hact
    rw [h.valueIn, hleaves.lone.valueIn]
    exact hleaves.apart hother
  case names => exact fun one other hone hother hfile => hfile.eq_of_names hone hother
  case own =>
    intro act id hact hsubject
    obtain ⟨later, hleaves⟩ := h.act hact
    rw [h.valueIn, hleaves.lone.valueIn]
    exact (hleaves.subjected hsubject).own
  case together =>
    intro one other hfile hone hother
    rw [h.valueIn, h.valueIn]
    exact h.alone.together hfile (h.hasOpened_iff.mp hone) (h.hasOpened_iff.mp hother)
  case reset => exact fun act one other hact hsubject => h.reset hact hsubject
  case forward =>
    intro acts id hlone hown
    refine h.rises hlone fun act hact target htarget hfile => ?_
    exact (hown act hact target htarget hfile).imp_right h.hasOpened_iff.mp

end Sharing

/-- Whatever is done with a registry and its gates, ids share a counter exactly as they share a
file. -/
theorem counter_per_file {storage : Storage} (hnumbered : storage.Numbered) (directory : String)
    {acts : List Act} (hlone : ∀ act ∈ acts, act.directory = none) :
    Filed storage directory (Sharing.run ⟨storage, [⟨directory, []⟩], []⟩ acts).1 := by
  obtain ⟨later, hlater, hdirectory, -⟩ := (Sharing.begin_lone hnumbered directory).run hlone
  obtain rfl : later.directory = directory := hdirectory
  exact hlater.filed

/-- Two ids of the file `/x.gate`, with one counter after the second was opened, and `y` apart. -/
theorem counter_per_file_aliased :
    let acts : List Act := [.publish 0 "x" 5, .publish 0 "y" 7, .open 0 "./x", .publishTo 0 3]
    let sharing : Sharing := (Sharing.run ⟨.empty, [⟨"/", []⟩], []⟩ acts).1
    sharing.valueIn 0 "x" = 3 ∧ sharing.valueIn 0 "./x" = 3 ∧ sharing.valueIn 0 "y" = 7 ∧
      Filed .empty "/" sharing := by
  intro acts sharing
  exact ⟨by decide +kernel, by decide +kernel, by decide +kernel,
    @counter_per_file .empty Storage.empty_numbered "/" acts (by decide)⟩

/-- Two different ids need not be two counters: the open of one takes back what was published to the
other. -/
theorem counter_per_file_reset :
    let acts : List Act := [.publish 0 "x" 5, .read 0 "x", .open 0 "./x", .read 0 "x"]
    "x" ≠ "./x" ∧ (Sharing.run ⟨.empty, [⟨"/", []⟩], []⟩ acts).2 =
      [.done, .value 5, .value (-1), .value (-1)] := by
  decide +kernel

end GatedPipeline.Gates
