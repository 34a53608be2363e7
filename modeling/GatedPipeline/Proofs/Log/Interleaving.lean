import GatedPipeline.Proofs.Log.Partway

/-!
Appends and reads at the same time. An append is taken apart into its single stores and a read into
its single header loads, and these are interleaved in any order, with any number of readers. Memory
is sequentially consistent: every load sees all stores made before it.

The states to look at are those inside one append: the body half written, the filler stored but not
the header, the header stored but not the counters. In all of them a reader stands in front of a
record, has been given all records before it, and can only be given one that is complete.
-/

namespace GatedPipeline.Log

/-- A reader that makes one header load at a time, with what its reads have answered so far. -/
structure Reader where
  tailer : Tailer
  answers : List (Except Fault (Option Entry))

namespace Reader

def start : Reader := ⟨.start, []⟩

/-- One header load. A filler is passed without an answer, and the read goes on behind it. -/
def load (log : Log) (reader : Reader) : Reader :=
  match Tailer.probe log reader.tailer with
  | .pending => ⟨reader.tailer, reader.answers ++ [.ok none]⟩
  | .passed after => ⟨after, reader.answers⟩
  | .found entry after => ⟨after, reader.answers ++ [.ok (some entry)]⟩
  | .broken fault => ⟨reader.tailer, reader.answers ++ [.error fault]⟩

def returned (reader : Reader) : List Entry :=
  reader.answers.filterMap fun answer =>
    match answer with
    | .ok entry => entry
    | .error _ => none

end Reader

/-- What happens next: an append is planned, the append under way makes its next store or ends, a
reader appears, a reader makes a load. -/
inductive Move where
  | plan (fill : List Edit)
  | store
  | tail
  | load (reader : Nat)

/-- A log with its appender, the stores still to be made by the append under way, and the readers.
The list `fills` has the fills of all appends that were neither refused nor broken, the latest last.
-/
structure Traffic where
  log : Log
  appender : Appender
  underway : Option Plan
  fills : List (List Edit)
  readers : List Reader

namespace Traffic

def begin (log : Log) (appender : Appender) : Traffic := ⟨log, appender, none, [], []⟩

def step (traffic : Traffic) : Move → Traffic
  | .plan fill =>
      match traffic.underway with
      | some _ => traffic
      | none =>
          let plan := traffic.log.plan traffic.appender fill
          let accepted := match plan.outcome with
            | .ok _ => [fill]
            | .error _ => []
          { traffic with underway := some plan, fills := traffic.fills ++ accepted }
  | .store =>
      match traffic.underway with
      | none => traffic
      | some ⟨store :: rest, outcome⟩ =>
          { traffic with log := traffic.log.store store, underway := some ⟨rest, outcome⟩ }
      | some ⟨[], .ok appender⟩ => { traffic with appender := appender, underway := none }
      | some ⟨[], .error _⟩ => { traffic with underway := none }
  | .tail => { traffic with readers := traffic.readers ++ [.start] }
  | .load reader =>
      { traffic with readers := traffic.readers.modify reader (Reader.load traffic.log) }

def run (traffic : Traffic) (moves : List Move) : Traffic := moves.foldl step traffic

/-- With nothing in between, the moves of an append come to the append as a whole. -/
theorem run_appendWith (log : Log) (appender : Appender) (fill : List Edit) :
    let after := (begin log appender).run
      (.plan fill :: List.replicate ((log.plan appender fill).stores.length + 1) .store)
    after.underway = none ∧ after.log = (log.appendWith appender fill).1 ∧
      after.appender = (log.appendWith appender fill).2.1 := by
  have hstores : ∀ (stores : List Store) (traffic : Traffic) (outcome : Except Problem Appender),
      traffic.underway = some ⟨stores, outcome⟩ →
      let after := traffic.run (List.replicate (stores.length + 1) .store)
      after.underway = none ∧ after.log = traffic.log.storeAll stores ∧
        after.appender = outcome.toOption.getD traffic.appender := by
    intro stores
    induction stores with
    | nil =>
        intro traffic outcome hunderway
        cases outcome <;> simp [run, step, hunderway, storeAll, Except.toOption]
    | cons store rest ih =>
        intro traffic outcome hunderway
        have hrest := ih (traffic.step .store) outcome (by simp [step, hunderway])
        simp only [step, hunderway] at hrest
        simp only [List.length_cons, List.replicate_succ, run, List.foldl_cons, step, hunderway]
          at hrest ⊢
        exact hrest
  rcases hplan : log.plan appender fill with ⟨stores, problem | next⟩
  · have h := hstores stores ((begin log appender).step (.plan fill)) (.error problem)
      (by simp [step, begin, hplan])
    simp only [step, begin, hplan] at h
    simpa [run, step, begin, hplan, appendWith, Except.toOption] using h
  · have h := hstores stores ((begin log appender).step (.plan fill)) (.ok next)
      (by simp [step, begin, hplan])
    simp only [step, begin, hplan] at h
    simpa [run, step, begin, hplan, appendWith, Except.toOption] using h

end Traffic

/-- What holds at every moment, also in the middle of an append. A reader has been given the first
records in order, each once, and none but committed ones, and all words that the fills gave to these
records are in memory. By `parked` a reader that has passed the filler in front of a record is given
nothing and stays there while the header is not stored, and gets that very record from the first
load after it is. By `passed` a filler leads in front of the next header and nowhere else. By
`reached` a reader that has not been given all committed records is in front of the next header or
one load away from it. -/
structure Traffic.InOrder (traffic : Traffic) : Prop where
  returned : ∀ reader ∈ traffic.readers, reader.returned.length ≤ traffic.log.committed ∧
    reader.returned = (List.range reader.returned.length).map traffic.log.layout.entryAt
  unbroken : ∀ reader ∈ traffic.readers, ∀ answer ∈ reader.answers, ∃ found, answer = .ok found
  filled : ∀ reader ∈ traffic.readers, ∀ entry ∈ reader.returned, ∃ fill,
    traffic.fills[entry.index]? = some fill ∧ Stored traffic.log entry.index fill
  parked : ∀ reader ∈ traffic.readers,
    reader.tailer = ⟨traffic.log.layout.headerAt reader.returned.length, reader.returned.length⟩ →
    reader.load traffic.log =
      if reader.returned.length < traffic.log.committed then
        ⟨⟨traffic.log.layout.endAfter (reader.returned.length + 1), reader.returned.length + 1⟩,
          reader.answers ++ [.ok (some (traffic.log.layout.entryAt reader.returned.length))]⟩
      else { reader with answers := reader.answers ++ [.ok none] }
  passed : ∀ reader ∈ traffic.readers, ∀ after, Tailer.probe traffic.log reader.tailer =
    .passed after →
      after = ⟨traffic.log.layout.headerAt reader.returned.length, reader.returned.length⟩
  reached : ∀ reader ∈ traffic.readers, reader.returned.length < traffic.log.committed →
    ∃ parked : Tailer,
      parked = ⟨traffic.log.layout.headerAt reader.returned.length, reader.returned.length⟩ ∧
        (reader.tailer = parked ∨ Tailer.probe traffic.log reader.tailer = .passed parked)
  counted : traffic.log.appended ≤ traffic.log.committed ∧
    traffic.log.committed ≤ traffic.log.appended + 1

/-! ### Readers -/

namespace Reader

/-- The reader has been given the first `count` records and stands in front of the next. -/
structure Given (layout : Layout) (count : Nat) (reader : Reader) : Prop where
  stands : reader.tailer.Stands layout count
  returned : reader.returned = (List.range count).map layout.entryAt
  unbroken : ∀ answer ∈ reader.answers, ∃ found, answer = .ok found

theorem start_given (layout : Layout) : Given layout 0 .start :=
  ⟨Tailer.start_stands layout, rfl, by simp [start]⟩

theorem Given.length {layout : Layout} {count : Nat} {reader : Reader}
    (h : reader.Given layout count) : reader.returned.length = count := by
  rw [h.returned, List.length_map, List.length_range]

private theorem unbroken_snoc {answers : List (Except Fault (Option Entry))}
    (h : ∀ answer ∈ answers, ∃ found, answer = .ok found) (found : Option Entry) :
    ∀ answer ∈ answers ++ [.ok found], ∃ found, answer = .ok found := by
  intro answer hanswer
  rcases List.mem_append.mp hanswer with hold | hnew
  · exact h answer hold
  · exact ⟨found, List.mem_singleton.mp hnew⟩

section Framed

variable {log : Log} {reader : Reader} {fillers records count : Nat} (hsound : log.Sound)
  (hframe : log.Framed fillers records) (horder : records ≤ fillers) (hroom : fillers ≤ log.room)
  (hcount : count ≤ records) (h : reader.Given log.layout count)

include hsound hframe horder hroom hcount h

/-- At the header of the next record a load answers, with the record once it is committed. -/
theorem load_parked (hat : reader.tailer.position = log.layout.headerAt count) :
    reader.load log =
      if count < records then
        ⟨⟨log.layout.endAfter (count + 1), count + 1⟩,
          reader.answers ++ [.ok (some (log.layout.entryAt count))]⟩
      else { reader with answers := reader.answers ++ [.ok none] } := by
  have hprobe := Tailer.probe_at_header hsound hframe horder hroom hcount h.stands.next hat
  by_cases hstored : count < records
  · rw [if_pos hstored] at hprobe ⊢
    simp only [load, hprobe]
  · rw [if_neg hstored] at hprobe ⊢
    simp only [load, hprobe]

/-- In front of a filler a load passes it, once it is stored. -/
theorem probe_unparked (hat : reader.tailer.position ≠ log.layout.headerAt count) :
    Tailer.probe log reader.tailer =
      if count < fillers then .passed ⟨log.layout.headerAt count, count⟩ else .pending := by
  have hend := h.stands.position.resolve_right hat
  have hbounds := log.layout.entry_bounds count
  exact Tailer.probe_at_end hsound hframe horder hroom hcount h.stands.next hend (by omega)

/-- A load gives the next record or leaves the reader in front of it. -/
theorem load_given : ∃ after, count ≤ after ∧ after ≤ records ∧
    (reader.load log).Given log.layout after := by
  by_cases hat : reader.tailer.position = log.layout.headerAt count
  · rw [load_parked hsound hframe horder hroom hcount h hat]
    by_cases hstored : count < records
    · rw [if_pos hstored]
      refine ⟨count + 1, by omega, hstored, ⟨rfl, .inl rfl⟩, ?_, unbroken_snoc h.unbroken _⟩
      have hreturned := h.returned
      simp only [returned] at hreturned
      simp [returned, hreturned, List.range_succ]
    · rw [if_neg hstored]
      refine ⟨count, Nat.le_refl _, hcount, h.stands, ?_, unbroken_snoc h.unbroken _⟩
      have hreturned := h.returned
      simp only [returned] at hreturned
      simp [returned, hreturned]
  · have hprobe := probe_unparked hsound hframe horder hroom hcount h hat
    by_cases hstored : count < fillers
    · rw [if_pos hstored] at hprobe
      refine ⟨count, Nat.le_refl _, hcount, ?_⟩
      simp only [load, hprobe]
      exact ⟨⟨rfl, .inr rfl⟩, h.returned, h.unbroken⟩
    · rw [if_neg hstored] at hprobe
      refine ⟨count, Nat.le_refl _, hcount, ?_⟩
      simp only [load, hprobe]
      refine ⟨h.stands, ?_, unbroken_snoc h.unbroken _⟩
      have hreturned := h.returned
      simp only [returned] at hreturned
      simp [returned, hreturned]

end Framed

end Reader

/-! ### Every move -/

/-- Where the writer stands: between two appends, in one that will commit, or in one whose fill
breaks. -/
inductive Writing (log : Log) (appender : Appender) (fills : List (List Edit)) :
    Option Plan → (fillers records : Nat) → Prop where
  | idle {count : Nat} (ready : appender = log.layout.appenderAt count)
      (begun : fills.length = count) (appended : log.appended = count) :
      Writing log appender fills none count count
  | appending {count : Nat} {fill : List Edit} {earlier : List (List Edit)} {phase : Phase}
      (room : count < log.room) (works : ∀ edit ∈ fill, edit.Works log.layout.words)
      (begun : fills = earlier ++ [fill]) (earlier : earlier.length = count)
      (partway : Partway log count fill phase) :
      Writing log appender fills
        (some ⟨phase.rest log.layout count, .ok (log.layout.appenderAt (count + 1))⟩)
        (phase.fillers count) (phase.records count)
  | astray {count : Nat} {rest : List Store} {problem : Problem}
      (ready : appender = log.layout.appenderAt count)
      (begun : fills.length = count) (appended : log.appended = count)
      (bodies : ∀ store ∈ rest, ∃ word value, word < log.layout.words ∧
        store = .word (log.layout.bodyAt count + word * 8) value) :
      Writing log appender fills (some ⟨rest, .error problem⟩) count count

/-- What every move of the traffic keeps. The records in memory have the words of their fills, the
append under way accounts for a filler that stands without its record, and each reader has been
given some number of the records from the front. -/
structure Traffic.Stands (traffic : Traffic) (fillers records : Nat) : Prop where
  sound : traffic.log.Sound
  framed : traffic.log.Framed fillers records
  order : records ≤ fillers
  room : fillers ≤ traffic.log.room
  writing : Writing traffic.log traffic.appender traffic.fills traffic.underway fillers records
  stored : ∀ index < records, ∃ fill,
    traffic.fills[index]? = some fill ∧ Stored traffic.log index fill
  readers : ∀ reader ∈ traffic.readers, ∃ count ≤ records,
    reader.Given traffic.log.layout count

theorem Partway.complete {log : Log} {count : Nat} {fill : List Edit} {phase : Phase}
    (h : Partway log count fill phase) (hcommitted : count < phase.records count) :
    Stored log count fill := by
  obtain ⟨done, hsplit, hstored⟩ := h.stored
  have htodo : phase.todo = [] := by
    cases phase with
    | filling todo => exact absurd hcommitted (Nat.lt_irrefl _)
    | _ => rfl
  rw [htodo, List.append_nil] at hsplit
  exact hsplit ▸ hstored

namespace Traffic

variable {traffic : Traffic} {fillers records : Nat}

theorem Stands.plan (h : traffic.Stands fillers records) (fill : List Edit) :
    (traffic.step (.plan fill)).Stands fillers records := by
  obtain ⟨log, appender, underway, fills, readers⟩ := traffic
  obtain ⟨hsound, hframed, horder, hroom, hwriting, hstored, hreaders⟩ := h
  dsimp only at hsound hframed hroom hwriting hstored hreaders
  cases hwriting with
  | appending room works hfills earlier partway =>
      exact ⟨hsound, hframed, horder, hroom, .appending room works hfills earlier partway, hstored,
        hreaders⟩
  | astray happender hfills happended hbodies =>
      exact ⟨hsound, hframed, horder, hroom, .astray happender hfills happended hbodies, hstored,
        hreaders⟩
  | idle happender hfills happended =>
      subst happender
      have hplan := plan_eq hsound hroom fill
      simp only [step, hplan]
      by_cases hfits : fillers < log.room
      · have hbody := fillStores_body (log.layout.bodyAt fillers) log.layout.words fill
        have hworks := works_of_fillStores (log.layout.bodyAt fillers) log.layout.words fill
        rcases hfill : fillStores (log.layout.bodyAt fillers) log.layout.words fill with
          ⟨stores, fault | ⟨⟨⟩⟩⟩
        · simp only [hfill] at hbody
          simp only [if_pos hfits, List.append_nil]
          exact ⟨hsound, hframed, horder, hroom, .astray rfl hfills happended hbody, hstored,
            hreaders⟩
        · simp only [hfill] at hworks
          simp only [if_pos hfits]
          have hrest : stores ++ log.layout.commitStores fillers =
              (Phase.filling fill).rest log.layout fillers := by simp [Phase.rest, hfill]
          rw [hrest]
          have hpartway : Partway log fillers fill (.filling fill) :=
            ⟨hsound, hframed, happended, [], rfl, fun word value hwritten => by cases hwritten⟩
          refine ⟨hsound, hframed, horder, hroom,
            .appending hfits (hworks trivial) rfl hfills hpartway, fun index hindex => ?_, hreaders⟩
          obtain ⟨other, hother, hkept⟩ := hstored index hindex
          exact ⟨other, by rw [List.getElem?_append_left (by omega), hother], hkept⟩
      · simp only [if_neg hfits, List.append_nil]
        exact ⟨hsound, hframed, horder, hroom, .astray rfl hfills happended (by simp), hstored,
          hreaders⟩

private theorem mem_modify {α : Type} {change : α → α} {list : List α} {index : Nat} {one : α}
    (h : one ∈ list.modify index change) : one ∈ list ∨ ∃ other ∈ list, one = change other := by
  obtain ⟨place, hplace⟩ := List.mem_iff_getElem?.mp h
  rw [List.getElem?_modify] at hplace
  cases hold : list[place]? with
  | none => simp [hold] at hplace
  | some other =>
      have hmember := List.mem_of_getElem? hold
      rw [hold, Option.map_eq_map, Option.map_some, Option.some.injEq] at hplace
      split at hplace
      · exact .inr ⟨other, hmember, hplace.symm⟩
      · exact .inl (hplace ▸ hmember)

private theorem readers_mono {layout : Layout} {readers : List Reader} {fewer more : Nat}
    (h : ∀ reader ∈ readers, ∃ count ≤ fewer, reader.Given layout count) (hmore : fewer ≤ more) :
    ∀ reader ∈ readers, ∃ count ≤ more, reader.Given layout count := by
  intro reader hreader
  obtain ⟨count, hcount, hgiven⟩ := h reader hreader
  exact ⟨count, Nat.le_trans hcount hmore, hgiven⟩

theorem Stands.store (h : traffic.Stands fillers records) : ∃ fillers' records',
    records ≤ records' ∧ (traffic.step .store).Stands fillers' records' := by
  obtain ⟨log, appender, underway, fills, readers⟩ := traffic
  obtain ⟨hsound, hframed, horder, hroom, hwriting, hstored, hreaders⟩ := h
  dsimp only at hsound hframed hroom hwriting hstored hreaders
  cases hwriting with
  | idle ready begun appended =>
      exact ⟨_, _, Nat.le_refl _, hsound, hframed, horder, hroom, .idle ready begun appended,
        hstored, hreaders⟩
  | @astray _ rest problem ready begun appended bodies =>
      cases rest with
      | nil =>
          exact ⟨_, _, Nat.le_refl _, hsound, hframed, horder, hroom, .idle ready begun appended,
            hstored, hreaders⟩
      | cons first rest =>
          -- the fill breaks, so what it stores stays in a body behind the last record
          obtain ⟨word, value, hword, rfl⟩ := bodies first (by simp)
          refine ⟨fillers, fillers, Nat.le_refl _, hsound.setWord _ _, hframed.setBody hword value,
            horder, hroom, .astray ready begun appended fun store hstore =>
              bodies store (by simp [hstore]), fun index hindex => ?_, hreaders⟩
          obtain ⟨fill, hfill, hkept⟩ := hstored index hindex
          exact ⟨fill, hfill, hkept.setOther (by omega) hword value⟩
  | @appending count fill earlier phase room works begun earlier_length partway =>
      have hbounds := phase.bounds count
      cases hrest : phase.rest log.layout count with
      | nil =>
          cases Phase.rest_nil hrest
          simp only [step]
          exact ⟨_, _, Nat.le_refl _, hsound, hframed, horder, hroom,
            .idle rfl (by simp [begun, earlier_length, Phase.fillers]) partway.appended, hstored,
            hreaders⟩
      | cons first rest =>
          obtain ⟨next, honward⟩ := partway.store works room hrest
          have hnext := next.bounds count
          have hlayout := layout_store log first
          have hroom' : (log.store first).room = log.room := by
            simp only [Log.room, hlayout, capacity_store]
          simp only [step]
          refine ⟨next.fillers count, next.records count, honward.records, honward.partway.sound,
            honward.partway.framed, hnext.2.1, by simp only [hroom']; omega, ?_, ?_, ?_⟩
          · rw [← honward.rest, ← hlayout]
            exact .appending (by rwa [hroom']) (by rwa [hlayout]) begun earlier_length
              honward.partway
          · intro index hindex
            -- only the store of the header commits, and the whole fill stands by then
            by_cases hlast : index = count
            · subst hlast
              exact ⟨fill, by simp [begun, ← earlier_length], honward.partway.complete hindex⟩
            · obtain ⟨other, hother, hkept⟩ := hstored index (by omega)
              exact ⟨other, hother, honward.others index other hlast hkept⟩
          · rw [hlayout]
            exact readers_mono hreaders honward.records

theorem Stands.tail (h : traffic.Stands fillers records) :
    (traffic.step .tail).Stands fillers records := by
  refine { h with readers := fun reader hreader => ?_ }
  rcases List.mem_append.mp hreader with hold | hnew
  · exact h.readers reader hold
  · rw [List.mem_singleton.mp hnew]
    exact ⟨0, Nat.zero_le _, Reader.start_given _⟩

theorem Stands.load (h : traffic.Stands fillers records) (index : Nat) :
    (traffic.step (.load index)).Stands fillers records := by
  refine { h with readers := fun reader hreader => ?_ }
  rcases mem_modify hreader with hsame | ⟨before, hbefore, rfl⟩
  · exact h.readers reader hsame
  · obtain ⟨count, hcount, hgiven⟩ := h.readers before hbefore
    obtain ⟨after, -, hafter, hgiven'⟩ :=
      Reader.load_given h.sound h.framed h.order h.room hcount hgiven
    exact ⟨after, hafter, hgiven'⟩

theorem Stands.step (h : traffic.Stands fillers records) (move : Move) : ∃ fillers' records',
    records ≤ records' ∧ (traffic.step move).Stands fillers' records' := by
  cases move with
  | plan fill => exact ⟨fillers, records, Nat.le_refl _, h.plan fill⟩
  | store => exact h.store
  | tail => exact ⟨fillers, records, Nat.le_refl _, h.tail⟩
  | load reader => exact ⟨fillers, records, Nat.le_refl _, h.load reader⟩

theorem Stands.run (h : traffic.Stands fillers records) (moves : List Move) :
    ∃ fillers' records', records ≤ records' ∧ (traffic.run moves).Stands fillers' records' := by
  induction moves generalizing traffic fillers records with
  | nil => exact ⟨fillers, records, Nat.le_refl _, h⟩
  | cons move rest ih =>
      obtain ⟨_, middle, hmiddle, hstep⟩ := h.step move
      obtain ⟨fillers', records', hrecords, hrun⟩ := ih hstep
      exact ⟨fillers', records', Nat.le_trans hmiddle hrecords, hrun⟩

theorem Stands.counted (h : traffic.Stands fillers records) :
    traffic.log.appended ≤ records ∧ records ≤ traffic.log.appended + 1 := by
  obtain ⟨log, appender, underway, fills, readers⟩ := traffic
  have hwriting := h.writing
  dsimp only at hwriting ⊢
  cases hwriting with
  | idle _ _ appended => omega
  | astray _ _ appended _ => omega
  | @appending count _ _ phase _ _ _ _ partway =>
      have hbounds := phase.bounds count
      have happended := partway.appended
      omega

theorem Stands.inOrder (h : traffic.Stands fillers records) : traffic.InOrder := by
  have hcommitted := committed_eq h.sound h.framed (Nat.le_trans h.order h.room)
  refine ⟨fun reader hreader => ?_, fun reader hreader => ?_, fun reader hreader entry hentry => ?_,
    fun reader hreader hparked => ?_, fun reader hreader after hpassed => ?_,
    fun reader hreader hmore => ?_, by rw [hcommitted]; exact h.counted⟩
  all_goals obtain ⟨count, hcount, hgiven⟩ := h.readers reader hreader
  case refine_1 =>
    rw [hgiven.length, hcommitted]
    exact ⟨hcount, hgiven.returned⟩
  case refine_2 => exact hgiven.unbroken
  case refine_3 =>
    rw [hgiven.returned, List.mem_map] at hentry
    obtain ⟨index, hindex, rfl⟩ := hentry
    exact h.stored index (Nat.lt_of_lt_of_le (List.mem_range.mp hindex) hcount)
  all_goals rw [hgiven.length] at *
  case refine_4 =>
    rw [hcommitted]
    exact Reader.load_parked h.sound h.framed h.order h.room hcount hgiven (by rw [hparked])
  case refine_5 =>
    by_cases hat : reader.tailer.position = traffic.log.layout.headerAt count
    · have hprobe := Tailer.probe_at_header h.sound h.framed h.order h.room hcount
        hgiven.stands.next hat
      rw [hpassed] at hprobe
      split at hprobe <;> cases hprobe
    · have hprobe := Reader.probe_unparked h.sound h.framed h.order h.room hcount hgiven hat
      rw [hpassed] at hprobe
      split at hprobe
      · exact Tailer.Probe.passed.inj hprobe
      · cases hprobe
  case refine_6 =>
    refine ⟨_, rfl, ?_⟩
    by_cases hat : reader.tailer.position = traffic.log.layout.headerAt count
    · refine .inl ?_
      have hnext := hgiven.stands.next
      rcases reader with ⟨⟨position, next⟩, answers⟩
      simp only at hat hnext
      rw [hat, hnext]
    · have hprobe := Reader.probe_unparked h.sound h.framed h.order h.room hcount hgiven hat
      have horder := h.order
      rw [if_pos (by omega)] at hprobe
      exact .inr hprobe

theorem begin_stands {storage after : Storage} {directory name : String} {stages bytes : Nat}
    {layout : Layout} {log held : Log} {appender : Appender}
    (hlayout : Layout.ofStages stages = .ok layout)
    (hcreate : Log.create storage directory name layout bytes = (after, .ok log))
    (htake : log.takeAppender = .ok (held, appender)) :
    (Traffic.begin held appender).Stands 0 0 := by
  obtain ⟨hholds, -, htaken⟩ := create_holds (Layout.ofStages_ok hlayout).1 hcreate
  simp only [takeAppender, htaken] at htake
  cases htake
  have hsound := hholds.sound
  exact ⟨⟨hsound.layout, hsound.pages, hsound.one_page, hsound.small, hsound.touched,
    hsound.written⟩, hholds.framed.of_words rfl rfl, Nat.le_refl _, Nat.zero_le _,
    .idle rfl rfl hholds.appended, by simp, by simp [begin]⟩

/-- However the stores of the appends and the loads of the readers are interleaved. -/
theorem interleaving_in_order {storage after : Storage} {directory name : String}
    {stages bytes : Nat} {layout : Layout} {log held : Log} {appender : Appender}
    (hlayout : Layout.ofStages stages = .ok layout)
    (hcreate : Log.create storage directory name layout bytes = (after, .ok log))
    (htake : log.takeAppender = .ok (held, appender)) (moves : List Move) :
    ((Traffic.begin held appender).run moves).InOrder := by
  obtain ⟨_, _, -, hstands⟩ := (begin_stands hlayout hcreate htake).run moves
  exact hstands.inOrder

theorem interleaving_in_order_parked :
    ((Traffic.begin ⟨"main", "/main.log", 4096, ⟨1⟩, .zeros, 0, 0, 0, true⟩ ⟨0, 0⟩).run
        [.tail, .plan [.remaining 5, .stamp 0 7], .store, .load 0, .store, .store, .load 0, .load 0,
          .store, .load 0]).InOrder ∧
      ((Traffic.begin ⟨"main", "/main.log", 4096, ⟨1⟩, .zeros, 0, 0, 0, true⟩ ⟨0, 0⟩).run
        [.tail, .plan [.remaining 5, .stamp 0 7], .store, .load 0, .store, .store, .load 0, .load 0,
          .store, .load 0]).readers.map Reader.answers =
        [[.ok none, .ok none, .ok (some ⟨0, ⟨64, 3⟩⟩)]] := by
  refine ⟨@interleaving_in_order .empty _ "/" "main" 1 100 ⟨1⟩ _ _ _ rfl (Prod.ext rfl rfl) rfl
    _, ?_⟩
  rfl

end Traffic

end GatedPipeline.Log
