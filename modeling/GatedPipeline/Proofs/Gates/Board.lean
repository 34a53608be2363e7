import GatedPipeline.Proofs.Gates

/-!
Registries over one directory are a board: one list of all that was ever set, latest first, in which
an id has what was set last. A registry's first open of an id sets it to `-1`, for whoever has its
gate already as well, and a publish sets it unless it would move the gate backwards. Nothing on the
board knows of files or counters.

The board does know of opens that the system lets down half-way. When the file of a first open has
been emptied and is refused its mapping, the id is set to `0` for whoever has its gate. When it is
refused its size, the id has no value any more: the next act that reads it ends the process.
-/

namespace GatedPipeline.Gates

/-- What is done with registries. Registries are named by the order in which they were made, gates
by the order in which they were handed out. `same` asks whether two gates that were handed out are
one and the same. -/
inductive Act where
  | register (directory : String)
  | «open» (registry : Nat) (id : String)
  | publish (registry : Nat) (id : String) (index : Int)
  | read (registry : Nat) (id : String)
  | snapshot (registry : Nat)
  | publishTo (gate : Nat) (index : Int)
  | readFrom (gate : Nat)
  | hasCompleted (gate index : Nat)
  | same (one other : Nat)
  deriving DecidableEq, Repr

/-- An act, and what the system does with the file that it opens, if it opens one. -/
abbrev Step := Act × Storage.Backing

/-- The registry and the id of an act that opens a gate unless it is open. -/
def Act.target : Act → Option (Nat × String)
  | .open registry id | .publish registry id _ | .read registry id => some (registry, id)
  | .register _ | .snapshot _ | .publishTo .. | .readFrom _ | .hasCompleted .. | .same .. => none

def Act.directory : Act → Option String
  | .register directory => some directory
  | _ => none

/-- The id of an act is a name, no path. -/
def Act.Named (act : Act) : Prop := ∀ target ∈ act.target, '/' ∉ target.2.toList

instance (act : Act) : Decidable act.Named :=
  inferInstanceAs (Decidable (∀ target ∈ act.target, '/' ∉ target.2.toList))

/-- What an act answers. It is `absent` when the registry or the gate it names does not exist. An
act that reads a counter whose file is empty gets no answer but `killed`, because the access ends
the process. -/
inductive Answer where
  | done
  | absent
  | killed
  | refused (failure : Failure)
  | broken (fault : Fault)
  | value (value : Int)
  | completed (completed : Bool)
  | same (same : Bool)
  | listed (entries : List (String × Int))
  deriving DecidableEq, Repr

def Answer.ofOutcome : Except Problem Unit → Answer
  | .ok () => .done
  | .error (.failed failure) => .refused failure
  | .error (.broken fault) => .broken fault

/-- Registries over the same files, and the gates that each has handed out. -/
structure Sharing where
  storage : Storage
  registries : List Registry
  gates : List (Nat × Gate)

namespace Sharing

section

variable (backing : Storage.Backing) (sharing : Sharing)

def «open» (number : Nat) (id : String) : Sharing × Answer :=
  match sharing.registries[number]? with
  | none => (sharing, .absent)
  | some registry =>
      match registry.openOn backing sharing.storage id with
      | (after, .error failure) => ({ sharing with storage := after }, .refused failure)
      | (after, .ok (opened, gate)) =>
          (⟨after, sharing.registries.set number opened, sharing.gates ++ [(number, gate)]⟩,
            .value (gate.read after))

def publish (number : Nat) (id : String) (index : Int) : Sharing × Answer :=
  match sharing.registries[number]? with
  | none => (sharing, .absent)
  | some registry =>
      match registry.publish sharing.storage id index backing with
      | (after, opened, outcome) =>
          (⟨after, sharing.registries.set number opened, sharing.gates⟩, .ofOutcome outcome)

def read (number : Nat) (id : String) : Sharing × Answer :=
  match sharing.registries[number]? with
  | none => (sharing, .absent)
  | some registry =>
      match registry.read sharing.storage id backing with
      | (after, .error failure) => ({ sharing with storage := after }, .refused failure)
      | (after, .ok (opened, value)) =>
          (⟨after, sharing.registries.set number opened, sharing.gates⟩, .value value)

end

def snapshot (sharing : Sharing) (number : Nat) : Answer :=
  match sharing.registries[number]? with
  | none => .absent
  | some registry => .listed (registry.snapshot sharing.storage)

def publishTo (sharing : Sharing) (number : Nat) (index : Int) : Sharing × Answer :=
  match sharing.gates[number]? with
  | none => (sharing, .absent)
  | some (_, gate) =>
      match gate.publish sharing.storage index with
      | .error fault => (sharing, .broken fault)
      | .ok storage => ({ sharing with storage := storage }, .done)

def readFrom (sharing : Sharing) (number : Nat) : Answer :=
  match sharing.gates[number]? with
  | none => .absent
  | some (_, gate) => .value (gate.read sharing.storage)

def hasCompleted (sharing : Sharing) (number index : Nat) : Answer :=
  match sharing.gates[number]? with
  | none => .absent
  | some (_, gate) => .completed (gate.hasCompleted sharing.storage index)

def same (sharing : Sharing) (one other : Nat) : Answer :=
  match sharing.gates[one]?, sharing.gates[other]? with
  | some first, some second => .same (first = second)
  | _, _ => .absent

def isEmpty (sharing : Sharing) (gate : Gate) : Bool := (sharing.storage.counter gate.cell).isNone

/-- Whether an act reads a counter whose file is empty. A first open does not: it reads the counter
only after it has set it. -/
def kills (sharing : Sharing) : Act → Bool
  | .open number id | .publish number id _ | .read number id =>
      ((sharing.registries[number]?).bind (·.find id)).any sharing.isEmpty
  | .snapshot number => (sharing.registries[number]?).any (·.gates.any sharing.isEmpty)
  | .publishTo number _ | .readFrom number | .hasCompleted number _ =>
      (sharing.gates[number]?).any fun handed => sharing.isEmpty handed.2
  | .register _ | .same .. => false

/-- An act that does not end the process. -/
def perform (backing : Storage.Backing) (sharing : Sharing) : Act → Sharing × Answer
  | .register directory =>
      ({ sharing with registries := sharing.registries ++ [⟨directory, []⟩] }, .done)
  | .open number id => sharing.open backing number id
  | .publish number id index => sharing.publish backing number id index
  | .read number id => sharing.read backing number id
  | .snapshot number => (sharing, sharing.snapshot number)
  | .publishTo number index => sharing.publishTo number index
  | .readFrom number => (sharing, sharing.readFrom number)
  | .hasCompleted number index => (sharing, sharing.hasCompleted number index)
  | .same one other => (sharing, sharing.same one other)

def actOn (backing : Storage.Backing) (sharing : Sharing) (act : Act) : Sharing × Answer :=
  if sharing.kills act then (sharing, .killed) else sharing.perform backing act

/-- Acts one after the other. What follows an act that ends the process is of no matter. -/
def runOn (sharing : Sharing) : List Step → Sharing × List Answer
  | [] => (sharing, [])
  | (first, backing) :: rest =>
      let (sharing, answer) := sharing.actOn backing first
      let (sharing, answers) := sharing.runOn rest
      (sharing, answer :: answers)

/-- An act on a system that refuses neither size nor mapping. -/
def act (sharing : Sharing) (act : Act) : Sharing × Answer := sharing.actOn .sound act

def run (sharing : Sharing) (acts : List Act) : Sharing × List Answer :=
  sharing.runOn (acts.map fun act => (act, .sound))

end Sharing

/-- What ids hold, the ids that each registry has opened, and the gates handed out. The list `sets`
has all that was ever set with the latest first, and an id that was set to nothing has no value. A
registry is its directory with the ids it has opened, and a gate is the number of its registry with
its id. -/
structure Board where
  sets : List (String × Option Int)
  registries : List (String × List String)
  gates : List (Nat × String)

namespace Board

def blank : Board := ⟨[], [], []⟩

def content (board : Board) (id : String) : Option Int :=
  (board.sets.lookup id).getD (some Gate.nothingCompleted)

def value (board : Board) (id : String) : Int := (board.content id).getD 0

def put (board : Board) (id : String) (content : Option Int) : Board :=
  { board with sets := (id, content) :: board.sets }

def set (board : Board) (id : String) (value : Int) : Board := board.put id (some value)

/-- A publish backwards breaks and sets nothing. -/
def publishTo (board : Board) (id : String) (index : Int) : Board × Answer :=
  if board.value id ≤ index then (board.set id index, .done)
  else (board, .broken (.gateMovedBackwards id))

/-- The first open of an id by a registry sets it. Some first opens are refused, either before the
file is touched or, by the system, after it has been emptied. Nothing is answered to an open that
succeeds. -/
def «open» (refusal : Storage.Backing → String → String → Option Failure) (board : Board)
    (backing : Storage.Backing) (number : Nat) (id : String) : Board × Option Answer :=
  match board.registries[number]? with
  | none => (board, some .absent)
  | some (directory, ids) =>
      if id ∈ ids then (board, none)
      else
        match refusal backing directory id with
        | some failure => (board, some (.refused failure))
        | none =>
            match Gate.spoiled backing (Gate.file directory id) with
            | some (failure, left) => (board.put id left, some (.refused failure))
            | none =>
                ({ board.set id Gate.nothingCompleted with
                  registries := board.registries.set number (directory, id :: ids) }, none)

def snapshot (board : Board) (number : Nat) : Answer :=
  match board.registries[number]? with
  | none => .absent
  | some (_, ids) => .listed (ids.mergeSort.map fun id => (id, board.value id))

def readFrom (board : Board) (number : Nat) : Answer :=
  match board.gates[number]? with
  | none => .absent
  | some (_, id) => .value (board.value id)

def hasCompleted (board : Board) (number index : Nat) : Answer :=
  match board.gates[number]? with
  | none => .absent
  | some (_, id) => .completed (Word.signed (UInt64.ofNat index) ≤ board.value id)

def same (board : Board) (one other : Nat) : Answer :=
  match board.gates[one]?, board.gates[other]? with
  | some first, some second => .same (first = second)
  | _, _ => .absent

def isEmpty (board : Board) (id : String) : Bool := (board.content id).isNone

def kills (board : Board) : Act → Bool
  | .open number id | .publish number id _ | .read number id =>
      (board.registries[number]?).any fun entry => entry.2.contains id && board.isEmpty id
  | .snapshot number => (board.registries[number]?).any (·.2.any board.isEmpty)
  | .publishTo number _ | .readFrom number | .hasCompleted number _ =>
      (board.gates[number]?).any fun handed => board.isEmpty handed.2
  | .register _ | .same .. => false

section

variable (refusal : Storage.Backing → String → String → Option Failure)

def perform (board : Board) (backing : Storage.Backing) : Act → Board × Answer
  | .register directory =>
      ({ board with registries := board.registries ++ [(directory, [])] }, .done)
  | .open number id =>
      match board.open refusal backing number id with
      | (after, some answer) => (after, answer)
      | (after, none) =>
          ({ after with gates := after.gates ++ [(number, id)] }, .value (after.value id))
  | .publish number id index =>
      match board.open refusal backing number id with
      | (after, some answer) => (after, answer)
      | (after, none) => after.publishTo id index
  | .read number id =>
      match board.open refusal backing number id with
      | (after, some answer) => (after, answer)
      | (after, none) => (after, .value (after.value id))
  | .snapshot number => (board, board.snapshot number)
  | .publishTo number index =>
      match board.gates[number]? with
      | none => (board, .absent)
      | some (_, id) => board.publishTo id index
  | .readFrom number => (board, board.readFrom number)
  | .hasCompleted number index => (board, board.hasCompleted number index)
  | .same one other => (board, board.same one other)

def actOn (board : Board) (backing : Storage.Backing) (act : Act) : Board × Answer :=
  if board.kills act then (board, .killed) else board.perform refusal backing act

def runOn (board : Board) : List Step → Board × List Answer
  | [] => (board, [])
  | (first, backing) :: rest =>
      let (board, answer) := board.actOn refusal backing first
      let (board, answers) := board.runOn rest
      (board, answer :: answers)

/-- Whether an open is the first of an id by a registry and gets as far as the file. -/
def isFirst (board : Board) (backing : Storage.Backing) (number : Nat) (id : String) : Bool :=
  match board.registries[number]? with
  | none => false
  | some (directory, ids) => !decide (id ∈ ids) && (refusal backing directory id).isNone

/-- The id that an act sets by a first open. -/
def first (board : Board) (backing : Storage.Backing) (act : Act) : Option String :=
  act.target.bind fun (number, id) =>
    if board.isFirst refusal backing number id then some id else none

/-- The ids set by first opens in some acts. -/
def firsts (board : Board) : List Step → List String
  | [] => []
  | (act, backing) :: rest =>
      (board.first refusal backing act).toList ++ firsts (board.actOn refusal backing act).1 rest

end

/-- The id of which an act may change the value. -/
def subject (board : Board) (act : Act) : Option String :=
  match act with
  | .publishTo number _ => (board.gates[number]?).map Prod.snd
  | act => act.target.map Prod.snd

/-! ### How values change -/

theorem content_put (board : Board) (id other : String) (content : Option Int) :
    (board.put id content).content other = if other = id then content else board.content other := by
  simp only [Board.content, put, List.lookup_cons]
  by_cases h : other = id
  · simp [h]
  · have hne : (other == id) = false := by simpa using h
    rw [hne, if_neg h]

theorem value_set (board : Board) (id other : String) (value : Int) :
    (board.set id value).value other = if other = id then value else board.value other := by
  rw [Board.value, set, content_put]
  split <;> rfl

theorem value_congr {board after : Board} {id : String}
    (h : after.content id = board.content id) : after.value id = board.value id := by
  rw [Board.value, Board.value, h]

/-- What an act may do to one id: nothing, or set it, forwards unless by a first open. -/
inductive Alters (board after : Board) (subject first : Option String) (id : String) : Prop
  | kept (h : after.content id = board.content id)
  | forward (hsubject : subject = some id) (hlower : board.value id ≤ after.value id)
  | first (hsubject : subject = some id) (hfirst : first = some id)
      (hlowest : Gate.nothingCompleted ≤ after.value id)

/-- A publish changes its own id at most, and never takes it back. -/
theorem alters_publishTo (board : Board) (id : String) (index : Int) (first : Option String)
    (other : String) : board.Alters (board.publishTo id index).1 (some id) first other := by
  rw [publishTo]
  split
  · rename_i hforward
    by_cases hsame : other = id
    · subst hsame
      apply Alters.forward rfl
      rw [value_set, if_pos rfl]
      exact hforward
    · apply Alters.kept
      rw [set, content_put, if_neg hsame]
  · exact .kept rfl

section

variable (refusal : Storage.Backing → String → String → Option Failure) (backing : Storage.Backing)

/-- What the first open of an id leaves there. -/
def opened (path : String) : Option Int :=
  match Gate.spoiled backing path with
  | some (_, left) => left
  | none => some Gate.nothingCompleted

theorem opened_lowest (path : String) :
    Gate.nothingCompleted ≤ (opened backing path).getD 0 := by
  obtain ⟨opening, _ | refusal, _ | refusal | _⟩ := backing <;>
    simp [opened, Gate.spoiled, Gate.nothingCompleted]

/-- The first open of an id sets it, a later one changes nothing. -/
theorem content_open (board : Board) (number : Nat) (id other : String) : ∃ path,
    (board.open refusal backing number id).1.content other =
      if other = id ∧ board.isFirst refusal backing number id = true then opened backing path
      else board.content other := by
  cases hregistry : board.registries[number]? with
  | none => exact ⟨"", by simp [Board.open, isFirst, hregistry]⟩
  | some entry =>
      obtain ⟨directory, ids⟩ := entry
      refine ⟨Gate.file directory id, ?_⟩
      simp only [Board.open, isFirst, hregistry]
      by_cases hopen : id ∈ ids
      · simp [hopen]
      · rw [if_neg hopen]
        cases hrefusal : refusal backing directory id with
        | some failure => simp
        | none =>
            simp only [hopen, decide_false, Bool.not_false, Option.isNone_none, Bool.and_self,
              and_true, opened]
            cases Gate.spoiled backing (Gate.file directory id) with
            | some left => exact content_put board id other left.2
            | none => exact content_put board id other (some Gate.nothingCompleted)

theorem alters_open (board : Board) (number : Nat) (id other : String) :
    board.Alters (board.open refusal backing number id).1 (some id)
      (if board.isFirst refusal backing number id then some id else none) other := by
  obtain ⟨path, hcontent⟩ := board.content_open refusal backing number id other
  split at hcontent
  · rename_i hfirst
    obtain ⟨rfl, hfirst⟩ := hfirst
    refine .first rfl (if_pos hfirst) ?_
    rw [Board.value, hcontent]
    exact opened_lowest backing path
  · exact .kept hcontent

/-- Two changes of one id, the second of them forwards. -/
theorem Alters.forwards {board between after : Board} {subject first : Option String}
    {id : String} (h : board.Alters between subject first id)
    (hlater : between.Alters after subject none id) : board.Alters after subject first id := by
  cases hlater with
  | first _ hfirst _ => cases hfirst
  | kept hkept =>
      have hvalue := value_congr hkept
      cases h with
      | kept hkept' => exact .kept (hkept.trans hkept')
      | forward hsubject hlower => exact .forward hsubject (hvalue ▸ hlower)
      | first hsubject hfirst hlowest => exact .first hsubject hfirst (hvalue ▸ hlowest)
  | forward hsubject hlower =>
      cases h with
      | kept hkept =>
          have hvalue := value_congr hkept
          exact .forward hsubject (hvalue ▸ hlower)
      | forward _ hlower' => exact .forward hsubject (Int.le_trans hlower' hlower)
      | first _ hfirst hlowest => exact .first hsubject hfirst (Int.le_trans hlowest hlower)

/-- An act changes its own id at most, and takes its value back only by a first open. -/
theorem alters_act (board : Board) (act : Act) (id : String) :
    board.Alters (board.actOn refusal backing act).1 (board.subject act)
      (board.first refusal backing act)
      id := by
  rw [actOn]
  split
  · exact .kept rfl
  cases act with
  | register directory | snapshot number | readFrom number | hasCompleted number index
  | same one another => exact .kept rfl
  | «open» number target =>
      have hopen := board.alters_open refusal backing number target id
      simp only [perform]
      rcases hopened : board.open refusal backing number target with ⟨after, _ | answer⟩ <;>
        rw [hopened] at hopen
      · exact hopen.forwards (.kept rfl)
      · exact hopen
  | publish number target index =>
      have hopen := board.alters_open refusal backing number target id
      simp only [perform]
      rcases hopened : board.open refusal backing number target with ⟨after, _ | answer⟩
      · rw [hopened] at hopen
        exact hopen.forwards (after.alters_publishTo target index none id)
      · rw [hopened] at hopen
        exact hopen
  | read number target =>
      have hopen := board.alters_open refusal backing number target id
      simp only [perform]
      rcases hopened : board.open refusal backing number target with ⟨after, _ | answer⟩ <;>
        rw [hopened] at hopen <;> exact hopen
  | publishTo number index =>
      simp only [perform]
      cases hgate : board.gates[number]? with
      | none => exact .kept rfl
      | some handed =>
          have hsubject : board.subject (.publishTo number index) = some handed.2 := by
            simp [subject, hgate]
          rw [hsubject]
          exact board.alters_publishTo handed.2 index _ id

end

/-- Between first opens of an id its value never decreases. -/
theorem value_run_le {refusal : Storage.Backing → String → String → Option Failure} {board : Board}
    {steps : List Step} {id : String} (h : id ∉ board.firsts refusal steps) :
    board.value id ≤ (board.runOn refusal steps).1.value id := by
  induction steps generalizing board with
  | nil => exact Int.le_refl _
  | cons step rest ih =>
      obtain ⟨act, backing⟩ := step
      simp only [firsts, List.mem_append, Option.mem_toList, not_or] at h
      refine Int.le_trans ?_ (ih h.2)
      cases board.alters_act refusal backing act id with
      | kept hkept => exact Int.le_of_eq (value_congr hkept).symm
      | forward _ hlower => exact hlower
      | first _ hfirst _ => exact absurd hfirst h.1

/-- No id ever stands below the value of a fresh gate. -/
theorem lowest_run {refusal : Storage.Backing → String → String → Option Failure} {board : Board}
    (h : ∀ id, Gate.nothingCompleted ≤ board.value id) (steps : List Step) (id : String) :
    Gate.nothingCompleted ≤ (board.runOn refusal steps).1.value id := by
  induction steps generalizing board with
  | nil => exact h id
  | cons step rest ih =>
      obtain ⟨act, backing⟩ := step
      apply ih
      intro other
      cases board.alters_act refusal backing act other with
      | kept hkept => exact value_congr hkept ▸ h other
      | forward _ hlower => exact Int.le_trans (h other) hlower
      | first _ _ hlowest => exact hlowest

end Board

end GatedPipeline.Gates
