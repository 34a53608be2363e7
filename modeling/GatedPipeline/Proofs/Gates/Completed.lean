import GatedPipeline.Proofs.Gates.Files

/-!
What a gate says is completed. Among the indices below `2 ^ 63` these are the ones up to the value
published last: none on a fresh gate, and never fewer later. An index from `2 ^ 63` on is compared
as a negative number, so every gate says it is completed from the start.
-/

namespace GatedPipeline

/-- No other id of the file to which `id` leads is open. -/
def Registry.Sole (initial : Storage) (registry : Registry) (id : String) : Prop :=
  ∀ other, (registry.find other).isSome →
    Gates.OneFile initial registry.directory other id → other = id

namespace Gates

def last (published : List Int) : Int := published.getLast?.getD Gate.nothingCompleted

/-- The id is the only one of its file that an act opens. -/
def Act.Sole (initial : Storage) (directory id : String) (act : Act) : Prop :=
  ∀ target ∈ act.target, OneFile initial directory target.2 id → target.2 = id

instance (initial : Storage) (directory id : String) (act : Act) :
    Decidable (act.Sole initial directory id) :=
  inferInstanceAs (Decidable (∀ target ∈ act.target, _))

namespace Sharing

def published (sharing : Sharing) (id : String) : List Act → List Int
  | [] => []
  | act :: rest =>
      (sharing.publishes id act).toList ++ published (sharing.act act).1 id rest

/-- The gate handed out under this number is one of the id. -/
def HandedFor (sharing : Sharing) (id : String) (number : Nat) : Prop :=
  ∃ holder gate, sharing.gates[number]? = some (holder, gate) ∧ gate.id = id

section Lone

variable {initial : Storage} {sharing : Sharing} {registry : Registry} {id : String}

/-- An act for which the id is alone with its file sets its value to what it publishes, if
anything. -/
theorem Lone.act_sole (h : sharing.Lone initial registry) (hsole : registry.Sole initial id)
    {act : Act} (hact : act.directory = none)
    (hown : act.Sole initial registry.directory id) :
    ∃ later, Leaves initial sharing registry act later ∧ later.Sole initial id ∧
      (sharing.act act).1.valueIn 0 id =
        (sharing.publishes id act).getD (sharing.valueIn 0 id) ∧
      ∀ index ∈ sharing.publishes id act, sharing.valueIn 0 id ≤ index := by
  obtain ⟨later, hleaves⟩ := h.act hact
  have hsubject : ∀ subject ∈ sharing.subject act,
      OneFile initial registry.directory subject id → subject = id := by
    intro subject hsubject hfile
    cases hfound : registry.find subject with
    | some gate => exact hsole subject (by rw [hfound]; rfl) hfile
    | none =>
        obtain ⟨number, htarget⟩ := h.target hsubject hfound
        exact hown _ htarget hfile
  refine ⟨later, hleaves, ?_, ?_⟩
  · intro other hopen hfile
    rw [hleaves.directory] at hfile
    cases hcase : sharing.subject act with
    | none =>
        rcases (hleaves.unsubjected hcase id).only other hopen with hsame | hbefore
        · exact hsame
        · exact hsole other hbefore hfile
    | some subject =>
        rcases (hleaves.subjected hcase).only other hopen with rfl | hbefore
        · exact hsubject _ hcase hfile
        · exact hsole other hbefore hfile
  · rw [h.valueIn, hleaves.lone.valueIn]
    by_cases hcase : sharing.subject act = some id
    · have hmoves := hleaves.subjected hcase
      exact ⟨hmoves.own, hmoves.forward⟩
    · rw [publishes_eq_none hcase]
      refine ⟨hleaves.apart fun subject hmember hfile => ?_, nofun⟩
      exact hcase (hsubject subject hmember hfile ▸ hmember)

/-- A run in which the id is alone with its file leaves it at the value published last. -/
theorem Lone.run_sole (h : sharing.Lone initial registry) (hsole : registry.Sole initial id)
    {acts : List Act} (hlone : ∀ act ∈ acts, act.directory = none)
    (hown : ∀ act ∈ acts, act.Sole initial registry.directory id) :
    ∃ later, (sharing.run acts).1.Lone initial later ∧ later.Sole initial id ∧
      later.directory = registry.directory ∧
      (sharing.run acts).1.valueIn 0 id =
        (sharing.published id acts).getLast?.getD (sharing.valueIn 0 id) ∧
      (sharing.valueIn 0 id :: sharing.published id acts).Pairwise (· ≤ ·) := by
  induction acts generalizing sharing registry with
  | nil => exact ⟨registry, h, hsole, rfl, rfl, List.pairwise_singleton _ _⟩
  | cons act rest ih =>
      obtain ⟨next, hleaves, hnext, hvalue, hforward⟩ := h.act_sole hsole
        (hlone act List.mem_cons_self) (hown act List.mem_cons_self)
      obtain ⟨later, hlater, hstill, hdirectory, hlast, hgrows⟩ := ih hleaves.lone hnext
        (fun act hact => hlone act (List.mem_cons_of_mem _ hact))
        (fun act hact => hleaves.directory ▸ hown act (List.mem_cons_of_mem _ hact))
      refine ⟨later, hlater, hstill, hdirectory.trans hleaves.directory, ?_, ?_⟩
      · have hrun : (sharing.run (act :: rest)).1 = ((sharing.act act).1.run rest).1 := rfl
        rw [published, hrun, hlast, hvalue]
        cases sharing.publishes id act with
        | none => rfl
        | some index =>
            rw [Option.toList_some, List.singleton_append, List.getLast?_cons]
            rfl
      · rw [published]
        rw [hvalue] at hgrows
        cases hpublished : sharing.publishes id act with
        | none => simpa [hpublished] using hgrows
        | some index =>
            have hle := hforward index hpublished
            rw [hpublished, Option.getD_some] at hgrows
            refine List.pairwise_cons.mpr ⟨fun value hvalue => ?_, hgrows⟩
            rcases List.mem_cons.mp hvalue with rfl | hrest
            · exact hle
            · exact Int.le_trans hle ((List.pairwise_cons.mp hgrows).1 value hrest)

end Lone

end Sharing

/-- What the gates handed out for an id say is completed after some values were `published` to it.
For indices below `signedLimit` these are the ones up to the value published last, so a fresh gate
has completed none of them and the completed ones are closed downwards. The cast of a larger index
is negative, and `beyond` says that every such index counts as completed. The published values grow,
and `later` says that a completed index stays completed under all acts that open no other id of the
same file. -/
structure Completes (initial : Storage) (directory id : String) (published : List Int)
    (sharing : Sharing) : Prop where
  upTo : ∀ number, sharing.HandedFor id number → ∀ index : Nat, index < signedLimit →
    sharing.hasCompleted number index = .completed (decide ((index : Int) ≤ last published))
  fresh : published = [] → ∀ number, sharing.HandedFor id number → ∀ index : Nat,
    index < signedLimit → sharing.hasCompleted number index = .completed false
  below : ∀ number, sharing.HandedFor id number → ∀ lower index : Nat, lower ≤ index →
    index < signedLimit → sharing.hasCompleted number index = .completed true →
      sharing.hasCompleted number lower = .completed true
  beyond : ∀ number, sharing.HandedFor id number → ∀ index : Nat, signedLimit ≤ index →
    index < wordLimit → sharing.hasCompleted number index = .completed true
  grows : (Gate.nothingCompleted :: published).Pairwise (· ≤ ·)
  later : ∀ number, sharing.HandedFor id number → ∀ acts : List Act,
    (∀ act ∈ acts, act.directory = none) → (∀ act ∈ acts, act.Sole initial directory id) →
      ∀ index : Nat, index < wordLimit → sharing.hasCompleted number index = .completed true →
        (sharing.run acts).1.hasCompleted number index = .completed true

namespace Sharing

section Lone

variable {initial : Storage} {sharing : Sharing} {registry : Registry} {id : String}
  (h : sharing.Lone initial registry) {number : Nat} (hnumber : sharing.HandedFor id number)

include h hnumber

theorem Lone.hasCompleted_signed {index : Nat} (hindex : (index : Int) < signedLimit) :
    sharing.hasCompleted number index =
      .completed (decide ((index : Int) ≤ sharing.valueIn 0 id)) := by
  obtain ⟨holder, gate, hgate, rfl⟩ := hnumber
  rw [h.valueIn, Registry.valueOf_found (h.handed hgate)]
  simp only [Sharing.hasCompleted, hgate, Gate.hasCompleted_signed hindex]

theorem Lone.hasCompleted_beyond {index : Nat} (hbeyond : signedLimit ≤ index)
    (hword : index < wordLimit) : sharing.hasCompleted number index = .completed true := by
  obtain ⟨holder, gate, hgate, rfl⟩ := hnumber
  have hfloor := h.alone.floor (h.held _ (List.mem_of_getElem? hgate))
  simp only [Sharing.hasCompleted, hgate, Gate.hasCompleted_beyond hbeyond hword hfloor]

/-- A gate that was handed out remains. -/
theorem Lone.handedFor_run {acts : List Act} (hlone : ∀ act ∈ acts, act.directory = none) :
    (sharing.run acts).1.HandedFor id number := by
  obtain ⟨later, -, -, -, hhanded⟩ := h.run hlone
  obtain ⟨holder, gate, hgate, hid⟩ := hnumber
  obtain ⟨hlt, hsame⟩ := List.getElem?_eq_some_iff.mp hgate
  exact ⟨holder, gate, hsame ▸ List.prefix_iff_getElem?.mp hhanded number hlt, hid⟩

/-- Completed indices stay completed. -/
theorem Lone.hasCompleted_run {acts : List Act} (hlone : ∀ act ∈ acts, act.directory = none)
    (hown : ∀ act ∈ acts, act.Sole initial registry.directory id) {index : Nat}
    (hword : index < wordLimit) (hdone : sharing.hasCompleted number index = .completed true) :
    (sharing.run acts).1.hasCompleted number index = .completed true := by
  obtain ⟨later, hlater, -⟩ := h.run hlone
  have hstill := h.handedFor_run hnumber hlone
  by_cases hindex : (index : Int) < signedLimit
  · have hrises := h.rises hlone fun act hact target htarget hfile =>
      .inl (hown act hact target htarget hfile)
    rw [h.hasCompleted_signed hnumber hindex, Answer.completed.injEq, decide_eq_true_eq] at hdone
    rw [hlater.hasCompleted_signed hstill hindex, decide_eq_true (Int.le_trans hdone hrises)]
  · exact hlater.hasCompleted_beyond hstill (Int.not_lt.mp hindex) hword

omit hnumber in
theorem Lone.completes {published : List Int} (hlast : sharing.valueIn 0 id = last published)
    (hgrows : (Gate.nothingCompleted :: published).Pairwise (· ≤ ·)) :
    Completes initial registry.directory id published sharing := by
  have hupTo : ∀ {number}, sharing.HandedFor id number → ∀ {index : Nat}, index < signedLimit →
      sharing.hasCompleted number index = .completed (decide ((index : Int) ≤ last published)) :=
    fun hnumber _ hindex => hlast ▸ h.hasCompleted_signed hnumber hindex
  constructor
  case upTo => exact fun number hnumber index => hupTo hnumber
  case fresh =>
    intro hnothing number hnumber index hindex
    have hnone : ¬ (index : Int) ≤ last published := by
      rw [hnothing]
      exact Int.not_le.mpr (Int.lt_of_lt_of_le (by decide) (Int.natCast_nonneg index))
    rw [hupTo hnumber hindex, decide_eq_false hnone]
  case below =>
    intro number hnumber lower index hle hindex hdone
    rw [hupTo hnumber hindex, Answer.completed.injEq, decide_eq_true_eq] at hdone
    rw [hupTo hnumber (by omega), decide_eq_true (by omega)]
  case beyond => exact fun number hnumber index => h.hasCompleted_beyond hnumber
  case grows => exact hgrows
  case later => exact fun _ hnumber acts hlone hown index => h.hasCompleted_run hnumber hlone hown

end Lone

end Sharing

/-- In a registry that has its directory to itself, the indices below `2 ^ 63` that a gate has
completed are those up to the value published to it last, whatever else is done. -/
theorem completed_upTo_published {storage : Storage} (hnumbered : storage.Numbered)
    {directory id : String} {acts : List Act} (hlone : ∀ act ∈ acts, act.directory = none)
    (hown : ∀ act ∈ acts, act.Sole storage directory id) :
    Completes storage directory id (Sharing.published ⟨storage, [⟨directory, []⟩], []⟩ id acts)
      (Sharing.run ⟨storage, [⟨directory, []⟩], []⟩ acts).1 := by
  have hclosed : Registry.Sole storage ⟨directory, []⟩ id := nofun
  obtain ⟨later, hlater, -, hdirectory, hlast, hgrows⟩ :=
    (Sharing.begin_lone hnumbered directory).run_sole hclosed hlone hown
  obtain rfl : later.directory = directory := hdirectory
  exact hlater.completes hlast hgrows

/-- One gate among others, behind two publishes that went through and one that did not. -/
theorem completed_upTo_published_twice :
    let acts : List Act := [.open 0 "x", .publishTo 0 4, .publish 0 "y" 9, .publish 0 "x" 2,
      .publish 0 "x" 7]
    let start : Sharing := ⟨.empty, [⟨"/", []⟩], []⟩
    start.published "x" acts = [4, 7] ∧ (start.run acts).1.HandedFor "x" 0 ∧
      (start.run acts).1.hasCompleted 0 7 = .completed true ∧
      (start.run acts).1.hasCompleted 0 8 = .completed false ∧
      Completes .empty "/" "x" (start.published "x" acts) (start.run acts).1 := by
  intro acts start
  have hpublished : start.published "x" acts = [4, 7] := by decide +kernel
  have hgate : (start.run acts).1.HandedFor "x" 0 := ⟨0, ⟨"x", 0⟩, by decide +kernel, rfl⟩
  have h := @completed_upTo_published .empty Storage.empty_numbered "/" "x" acts (by decide)
    (by decide +kernel)
  refine ⟨hpublished, hgate, ?_, ?_, h⟩
  · rw [h.upTo 0 hgate 7 (by decide)]
    exact congrArg (fun list => Answer.completed (decide ((7 : Int) ≤ last list))) hpublished
  · rw [h.upTo 0 hgate 8 (by decide)]
    exact congrArg (fun list => Answer.completed (decide ((8 : Int) ≤ last list))) hpublished

/-- A fresh gate says that the greatest index is completed, and nothing below `2 ^ 63`. -/
theorem completed_upTo_published_wrapped :
    let acts : List Act := [.open 0 "x", .hasCompleted 0 0, .hasCompleted 0 18446744073709551615]
    Sharing.published ⟨.empty, [⟨"/", []⟩], []⟩ "x" acts = [] ∧
      (Sharing.run ⟨.empty, [⟨"/", []⟩], []⟩ acts).2 =
        [.value (-1), .completed false, .completed true] := by
  decide +kernel

end Gates

end GatedPipeline
