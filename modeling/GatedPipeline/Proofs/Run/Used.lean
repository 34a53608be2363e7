import GatedPipeline.Proofs.Gates.Sharing
import GatedPipeline.Proofs.Log.Sessions
import GatedPipeline.Proofs.Run.Fresh

/-!
A run in use. Its log may have been through any sessions and its gates may have been opened, read
and published to in any order, under any ids that are names; the log keeps its frame and every gate
has a counter of its own all the same, so whoever works on from there finds a log that reads record
by record and gates that move one at a time.
-/

namespace GatedPipeline

namespace Gates.Sharing

/-- No registry is made but by an act that makes one. -/
theorem registries_act {act : Act} (hact : act.directory = none) (backing : Storage.Backing)
    (sharing : Sharing) :
    (sharing.actOn backing act).1.registries.length = sharing.registries.length := by
  rw [actOn]
  split
  · rfl
  cases act with
  | register directory => cases hact
  | snapshot number | readFrom number | hasCompleted number index | same one other => rfl
  | «open» number id =>
      simp only [perform, Sharing.open]
      split
      · rfl
      · split
        · rfl
        · exact List.length_set
  | publish number id index =>
      simp only [perform, Sharing.publish]
      split
      · rfl
      · exact List.length_set
  | read number id =>
      simp only [perform, Sharing.read]
      split
      · rfl
      · split
        · rfl
        · exact List.length_set
  | publishTo number index =>
      simp only [perform, Sharing.publishTo]
      split
      · rfl
      · split <;> rfl

theorem registries_run {acts : List Act} (hacts : ∀ act ∈ acts, act.directory = none)
    (sharing : Sharing) : (sharing.run acts).1.registries.length = sharing.registries.length := by
  induction acts generalizing sharing with
  | nil => rfl
  | cons first rest ih =>
      have hrest := ih (fun act hact => hacts act (List.mem_cons_of_mem first hact))
        (sharing.act first).1
      exact hrest.trans (registries_act (hacts first List.mem_cons_self) .sound sharing)

section Follows

variable {initial : Storage} {directories : List String} {base : Storage.Place}
  {sharing : Sharing} {board : Board}
  (h : sharing.Follows initial directories base board)

include h

theorem Follows.apart {registry : Registry} (hregistry : registry ∈ sharing.registries) :
    registry.Apart sharing.storage := by
  have hfiles := h.files registry hregistry
  refine ⟨fun gate hgate => h.numbered.kept (hfiles gate hgate), ?_⟩
  intro one hone other hother hcell
  have hfile := hfiles one hone
  rw [hcell] at hfile
  simpa using h.numbered.own hfile (hfiles other hother)

theorem Follows.valueOf {registry : Registry} (hregistry : registry ∈ sharing.registries)
    (id : String) : registry.valueOf sharing.storage id =
      if (registry.find id).isSome then board.value id else Gate.nothingCompleted := by
  rw [Registry.valueOf]
  cases hgate : registry.find id with
  | none => rfl
  | some gate =>
      obtain ⟨hmember, rfl⟩ := Registry.find_mem hgate
      exact h.value hregistry hmember

end Follows

end Gates.Sharing

namespace Registry

/-- What opening the gate of an id leaves: the gates that were open, the value of every id, and
whether it is refused. -/
structure Leaves (registry : Registry) (storage : Storage) (id : String) (after : Storage)
    (opened : Registry) (gate : Gate) : Prop where
  directory : opened.directory = registry.directory
  refusal : ∀ other, '/' ∉ other.toList →
    Gates.refusal after .sound registry.directory other =
      Gates.refusal storage .sound registry.directory other
  found : opened.find id = some gate
  kept : ∀ other second, registry.find other = some second → opened.find other = some second
  values : ∀ other, opened.valueOf after other = registry.valueOf storage other

/-- The registry is one of those over one directory that follow a board. -/
inductive Tended (registry : Registry) (storage : Storage) : Prop
  | among {initial : Storage} {directories : List String} {base : Storage.Place}
    {registries : List Registry} {gates : List (Nat × Gate)} {board : Gates.Board} {number : Nat}
    (hshared : Gates.Shared initial directories)
    (hbase : ∀ directory ∈ directories, ∀ name reached, '/' ∉ name.toList → Storage.Plain name →
      initial.resolve (Storage.join directory name) = .ok reached → reached = base ++ [name])
    (hfollows : Gates.Sharing.Follows initial directories base ⟨storage, registries, gates⟩ board)
    (hregistry : registries[number]? = some registry) : Tended registry storage

variable {registry : Registry} {storage : Storage}

theorem Tended.apart (h : registry.Tended storage) : registry.Apart storage := by
  obtain ⟨-, -, hfollows, hregistry⟩ := h
  exact hfollows.apart (List.mem_of_getElem? hregistry)

/-- The first open makes a counter at `-1`, which is what the gate counted as before. -/
theorem Tended.opened (h : registry.Tended storage) {id : String} (hid : '/' ∉ id.toList)
    {after : Storage} {opened : Registry} {gate : Gate}
    (hopen : registry.open storage id = .ok (after, opened, gate)) :
    opened.Tended after ∧ registry.Leaves storage id after opened gate := by
  obtain @⟨_, _, _, registries, gates, board, number, hshared, hbase, hfollows, hregistry⟩ := h
  obtain ⟨hlt, -⟩ := List.getElem?_eq_some_iff.mp hregistry
  cases hfound : registry.find id with
  | some present =>
      simp only [Registry.open_eq, hfound] at hopen
      cases hopen
      exact ⟨.among hshared hbase hfollows hregistry, rfl, fun _ _ => rfl, hfound,
        fun _ _ hkept => hkept, fun _ => rfl⟩
  | none =>
      simp only [Registry.open_eq, hfound] at hopen
      split at hopen
      · cases hopen
      · rename_i cell hcounter
        cases hopen
        obtain ⟨hreset, hfile, hcontent⟩ := hfollows.reset hshared hbase hregistry hid hcounter
        have hfirst := hreset.add hregistry hfound hfile (by
          rw [hcontent, Gates.Board.content_put, if_pos rfl])
        have hset : (registries.set number
            ⟨registry.directory, ⟨id, cell⟩ :: registry.gates⟩)[number]? =
              some ⟨registry.directory, ⟨id, cell⟩ :: registry.gates⟩ :=
          List.getElem?_set_self hlt
        have hfind := find_cons registry.directory ⟨id, cell⟩ registry.gates
        have hdirectory := hfollows.shared registry (List.mem_of_getElem? hregistry)
        refine ⟨.among hshared hbase hfirst hset, rfl, fun other hslash => ?_,
          (hfind id).trans (if_pos rfl), fun other second hsecond => ?_, fun other => ?_⟩
        · exact (hfirst.refusal_same hdirectory hslash .sound).trans
            (hfollows.refusal_same hdirectory hslash .sound).symm
        · rw [hfind, if_neg, hsecond]
          rintro rfl
          rw [hfound] at hsecond
          cases hsecond
        · have hvalue := Gates.Board.value_set board id other Gate.nothingCompleted
          rw [hfirst.valueOf (List.mem_of_getElem? hset),
            hfollows.valueOf (List.mem_of_getElem? hregistry), hfind]
          by_cases hother : other = id
          · subst hother
            rw [if_pos rfl] at hvalue
            rw [if_pos rfl, hfound]
            exact hvalue
          · rw [if_neg hother] at hvalue
            rw [if_neg hother, ← hvalue]
            rfl

end Registry

/-- A log file is no counter. -/
theorem Log.create_numbered {storage after : Storage} {directory name : String} {layout : Layout}
    {bytes : Nat} {log : Log} (h : storage.Numbered)
    (hcreate : create storage directory name layout bytes = (after, .ok log)) :
    after.Numbered := by
  obtain ⟨-, capacity, created, -, hcreated, hsized, -⟩ := create_ok hcreate
  obtain ⟨place, hresolve, hnone, rfl⟩ := Storage.createNew_ok hcreated
  have hplace := Storage.place_ne_root hnone
  have hnowhere : storage.find place ≠ some .directory := by simp [hnone]
  obtain ⟨-, reached, hagain, -, rfl⟩ := Storage.resize_ok hsized
  have hsame := Storage.resolve_mono hresolve
    (Storage.directories_put storage hplace hnowhere (.log 0)) rfl
  obtain rfl : place = reached := Except.ok.inj (hsame.symm.trans hagain)
  have hmade : (storage.put place (.log 0)).Numbered := h.put_other hplace (by simp)
  exact hmade.put_other hplace (by simp)

namespace Run.Context

theorem create_numbered {storage : Storage} {config : Config} {context : Context}
    (h : storage.Numbered) (hcreate : create storage config = .ok context) :
    context.storage.Numbered := by
  obtain ⟨-, made, within, directory, hmakes, hfresh, hfill⟩ := create_ok hcreate
  obtain ⟨place, hnone, rfl, -⟩ := Storage.makeFresh_ok (by decide) hfresh
  obtain ⟨after, bytes, log, -, hlog, rfl⟩ := fill_ok hfill
  have hmade := Storage.makeDirectories_keeps Storage.Numbered.makeDirectory h
    config.outputDirectory
  rw [hmakes] at hmade
  exact Log.create_numbered (hmade.put_other (Storage.place_ne_root hnone) (by simp)) hlog

def valueOf (context : Context) (id : String) : Int := context.gates.valueOf context.storage id

/-- The run after some calls on its log and some acts on its gates, asked to give up or not. -/
def used (context : Context) (calls : List Log.Call) (acts : List Gates.Act) (aborted : Bool) :
    Context :=
  let sharing := (Gates.Sharing.run ⟨context.storage, [context.gates], []⟩ acts).1
  { context with
    log := ((Log.Sessions.begin context.log).run calls).usage.log
    gates := sharing.registries.headD context.gates
    storage := sharing.storage
    aborted := aborted }

def gatePath (context : Context) (stage : Nat) : String :=
  Gate.file context.directory (Gate.ofStage stage)

/-- A context whose log has the frame of `committed` records and whose gates are tended. A stage
gets its gate unless the path to its file is too long. -/
structure InUse (config : Config) (committed : Nat) (context : Context) : Prop where
  log : context.log.Kept ⟨config.stages⟩ context.log.capacity committed
  gates : context.gates.Tended context.storage
  config : context.config = config
  directory : context.gates.directory = context.directory
  granted : ∀ stage ≤ maxStages, (context.gatePath stage).utf8ByteSize ≤ Storage.longestPath →
    Gates.refusal context.storage .sound context.directory (Gate.ofStage stage) = none

theorem Fresh.used {context : Context} {config : Config} {place : Storage.Place}
    (h : context.Fresh config place) (hnumbered : context.storage.Numbered)
    (calls : List Log.Call) {acts : List Gates.Act}
    (hacts : ∀ act ∈ acts, act.Named ∧ act.directory = none) (aborted : Bool) :
    ∃ committed, (context.used calls acts aborted).InUse config committed := by
  have hlog := (Log.Sessions.begin_empty h.log h.untaken).run calls
  have hshared : Gates.Shared context.storage [context.directory] := by
    intro one hone other hother
    rw [List.mem_singleton.mp hone, List.mem_singleton.mp hother]
    exact .inl rfl
  obtain ⟨base, hbase⟩ := hshared.base
  have hstart : Gates.Sharing.Follows context.storage [context.directory] base
      ⟨context.storage, [context.gates], []⟩ ⟨[], [(context.directory, [])], []⟩ := by
    rw [h.gates]
    exact ((Gates.follows_start hnumbered [context.directory] base).register
      (List.mem_singleton_self context.directory)).follows
  have hsteps : ∀ step ∈ acts.map fun act => (act, Storage.Backing.sound),
      step.1.Named ∧ step.1.directory = none := by
    simpa using hacts
  obtain ⟨-, hfollows⟩ := hstart.run hshared hbase _ (fun step hstep => (hsteps step hstep).1)
    fun directory hdirectory => by
      obtain ⟨step, hstep, hmakes⟩ := List.mem_filterMap.mp hdirectory
      rw [(hsteps step hstep).2] at hmakes
      cases hmakes
  have hlength := Gates.Sharing.registries_run (fun act hact => (hacts act hact).2)
    ⟨context.storage, [context.gates], []⟩
  obtain ⟨registry, honly⟩ := List.length_eq_one_iff.mp hlength
  have hkept := hlog.usage.log
  rw [h.layout, ← hkept.capacity_eq] at hkept
  have hused : (context.used calls acts aborted).gates = registry := by
    simp only [Context.used, honly]
    rfl
  have hfirst : (Gates.Sharing.run ⟨context.storage, [context.gates], []⟩ acts).1.registries[0]? =
      some registry := by
    rw [honly]
    rfl
  have hdirectory : registry.directory = context.directory :=
    List.mem_singleton.mp (hfollows.shared registry (List.mem_of_getElem? hfirst))
  refine ⟨_, hkept, ?_, h.config, hused ▸ hdirectory, fun stage hstage hpath => ?_⟩
  · rw [hused]
    exact .among hshared hbase hfollows hfirst
  · apply (hfollows.refusal_same (List.mem_singleton_self _) (Gate.ofStage_slash stage)
      .sound).trans
    have hsound := h.sound
    rw [h.gates] at hsound
    obtain ⟨opened, hopen⟩ := hsound.opens hstage hpath
    have hnew : Registry.find ⟨context.directory, []⟩ (Gate.ofStage stage) = none := rfl
    rw [Gates.refusal_sound hnew, hopen]

section InUse

variable {context : Context} {config : Config} {committed : Nat}
  (h : context.InUse config committed)

include h

/-- What opening a gate leaves: only the registry and the files can differ. -/
structure Opened (context : Context) (id : String) (after : Context) (gate : Gate) : Prop where
  gates : context.gates.Leaves context.storage id after.storage after.gates gate
  log : after.log = context.log
  config : after.config = context.config
  aborted : after.aborted = context.aborted
  directory : after.directory = context.directory

/-- An open that is refused changes nothing. -/
theorem InUse.openGate {id : String} (hid : '/' ∉ id.toList) :
    (∃ failure, context.openGate id = (context, .error failure)) ∨
      ∃ after gate, context.openGate id = (after, .ok gate) ∧ after.InUse config committed ∧
        context.Opened id after gate := by
  simp only [Context.openGate]
  cases hopen : context.gates.open context.storage id with
  | error failure => exact .inl ⟨failure, rfl⟩
  | ok opened =>
      obtain ⟨storage, gates, gate⟩ := opened
      obtain ⟨htended, hleaves⟩ := h.gates.opened hid hopen
      refine .inr ⟨_, gate, rfl, ⟨h.log, htended, h.config, hleaves.directory.trans h.directory,
        fun stage hstage hpath => ?_⟩, hleaves, rfl, rfl, rfl, rfl⟩
      have hsame := hleaves.refusal _ (Gate.ofStage_slash stage)
      rw [h.directory] at hsame
      exact hsame.trans (h.granted stage hstage hpath)

/-- No stage is refused a gate but for the length of its path. -/
theorem InUse.refused {stage : Nat} {after : Context} {failure : Failure}
    (hstage : stage ≤ maxStages)
    (hrefused : context.openGate (Gate.ofStage stage) = (after, .error failure)) :
    Storage.longestPath < (context.gatePath stage).utf8ByteSize := by
  apply Nat.lt_of_not_le
  intro hpath
  have hgranted := h.granted stage hstage hpath
  simp only [Context.openGate] at hrefused
  cases hopen : context.gates.open context.storage (Gate.ofStage stage) with
  | error reason =>
      have hreason := Gates.refusal_of_open hopen
      rw [h.directory, hgranted] at hreason
      cases hreason
  | ok opened =>
      rw [hopen] at hrefused
      cases hrefused

end InUse

end Run.Context

end GatedPipeline
