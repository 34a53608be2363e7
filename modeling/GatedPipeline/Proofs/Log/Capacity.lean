import GatedPipeline.Proofs.Log.Sessions
import GatedPipeline.Proofs.Log.Size

/-!
How many records a log takes. The number of bytes for so many records is computed from the distance
between two bodies, and the appender walks from the end of one entry to the header of the next; both
come to the same number of records, whatever the layout, and up to the largest sizes there are.
-/

namespace GatedPipeline

namespace Log

/-- An append that nothing but a full log refuses: the record is not too wide, and the fill does
not break. -/
def Act.Fits (words : Nat) : Act → Prop
  | .append given => given.length ≤ words
  | .appendWith fill => ∀ edit ∈ fill, edit.Works words
  | .tail | .next _ | .seek .. | .edit .. | .look _ | .count | .pretouch => False

instance (words : Nat) (act : Act) : Decidable (act.Fits words) :=
  match act with
  | .append given => inferInstanceAs (Decidable (given.length ≤ words))
  | .appendWith fill => inferInstanceAs (Decidable (∀ edit ∈ fill, edit.Works words))
  | .tail | .next _ | .seek .. | .edit .. | .look _ | .count | .pretouch => .isFalse id

/-- The answer to an append of record `index` that has no slot. -/
def full (log : Log) (index : Nat) : Problem :=
  .of (.logFull log.name index log.layout.bytes (64 + index * log.layout.span) log.capacity)

/-- What an appender answers in a log with room for so many records, after so many appends that
fit. -/
structure Accepts (log : Log) (appender : Appender) (room fitting : Nat) : Prop where
  wide : ∀ given, log.layout.words < given.length → log.append appender given =
    (log, appender, .error (.of (.recordTooWide given.length log.layout.words)))
  accepted : fitting < room →
    (∀ given, given.length ≤ log.layout.words →
      (log.append appender given).2.2 = .ok fitting) ∧
    ∀ fill, (∀ edit ∈ fill, edit.Works log.layout.words) →
      (log.appendWith appender fill).2.2 = .ok fitting
  broken : fitting < room → ∀ fill, (∃ edit ∈ fill, ¬ edit.Works log.layout.words) →
    ∃ fault, (log.appendWith appender fill).2 = (appender, .error (.broken fault))
  full : room ≤ fitting →
    (∀ given, given.length ≤ log.layout.words →
      log.append appender given = (log, appender, .error (log.full room))) ∧
    ∀ fill, log.appendWith appender fill = (log, appender, .error (log.full room))

/-! ### Single appends -/

section Kept

variable {log : Log} {layout : Layout} {capacity most count : Nat}
  (h : log.Kept layout capacity most) (hcount : count ≤ most)

include h

theorem Kept.narrow : layout.words < wordLimit := h.layout_eq ▸ h.sound.narrow

include hcount

theorem Kept.appendWith_fits (hroom : count < log.room) {fill : List Edit}
    (hworks : ∀ edit ∈ fill, edit.Works layout.words) :
    (log.appendWith (layout.appenderAt count) fill).2 =
      (layout.appenderAt (count + 1), .ok count) := by
  obtain rfl := h.layout_eq
  have hplan := plan_eq h.sound (Nat.le_trans hcount h.fits) fill
  have hok := fillStores_works (log.layout.bodyAt count) hworks
  rw [if_pos hroom] at hplan
  rcases hstores : fillStores (log.layout.bodyAt count) log.layout.words fill with ⟨stores, outcome⟩
  simp only [hstores] at hok hplan
  subst hok
  unfold Log.appendWith
  rw [hplan]
  rfl

theorem Kept.appendWith_breaks (hroom : count < log.room) {fill : List Edit}
    (hbreaks : ∃ edit ∈ fill, ¬ edit.Works layout.words) :
    ∃ fault, (log.appendWith (layout.appenderAt count) fill).2 =
      (layout.appenderAt count, .error (.broken fault)) := by
  obtain rfl := h.layout_eq
  have hplan := plan_eq h.sound (Nat.le_trans hcount h.fits) fill
  rw [if_pos hroom] at hplan
  rcases hstores : fillStores (log.layout.bodyAt count) log.layout.words fill with
    ⟨stores, fault | ⟨⟩⟩
  · simp only [hstores] at hplan
    refine ⟨fault, ?_⟩
    unfold Log.appendWith
    rw [hplan]
  · obtain ⟨edit, hedit, hnot⟩ := hbreaks
    have hworks := works_of_fillStores _ _ fill (congrArg Prod.snd hstores)
    exact absurd (hworks edit hedit) hnot

theorem Kept.appendWith_full (hroom : log.room ≤ count) (fill : List Edit) :
    log.appendWith (layout.appenderAt count) fill =
      (log, layout.appenderAt count, .error (log.full count)) := by
  obtain rfl := h.layout_eq
  have hplan := plan_eq h.sound (Nat.le_trans hcount h.fits) fill
  rw [if_neg (Nat.not_lt.mpr hroom)] at hplan
  unfold Log.appendWith
  rw [hplan]
  rfl

/-- An appender that stands behind `min fitting room` records answers by `fitting` alone. -/
theorem Kept.accepts {fitting : Nat} (hfitting : count = min fitting log.room) :
    Accepts log (layout.appenderAt count) log.room fitting := by
  have hfits : count ≤ log.room := by omega
  have hwords := congrArg Layout.words h.layout_eq
  have hnarrow := h.narrow
  have hgiven : ∀ given : List Word, given.length ≤ log.layout.words →
      log.append (layout.appenderAt count) given =
        log.appendWith (layout.appenderAt count) (editsOf given) := by
    intro given hlength
    unfold Log.append
    rw [if_neg (Nat.not_lt.mpr hlength)]
  constructor
  case wide =>
    intro given hwide
    unfold Log.append
    rw [if_pos hwide]
  case accepted =>
    intro hmore
    obtain rfl : count = fitting := by omega
    rw [hwords] at hgiven ⊢
    refine ⟨fun given hlength => ?_, fun fill hworks => ?_⟩
    · rw [hgiven given hlength]
      exact congrArg Prod.snd (h.appendWith_fits hcount hmore (editsOf_works hnarrow given hlength))
    · exact congrArg Prod.snd (h.appendWith_fits hcount hmore hworks)
  case broken =>
    intro hmore fill hbreaks
    rw [hwords] at hbreaks
    exact h.appendWith_breaks hcount (by omega) hbreaks
  case full =>
    intro hnone
    obtain rfl : count = log.room := by omega
    refine ⟨fun given hlength => ?_, h.appendWith_full hcount (Nat.le_refl _)⟩
    rw [hgiven given hlength]
    exact h.appendWith_full hcount (Nat.le_refl _) (editsOf given)

end Kept

/-- An appender commits a record where a fitting append finds room, and nowhere else. -/
theorem Usage.Kept.appended_iff {usage : Usage} {layout : Layout} {capacity most room fitting : Nat}
    (h : usage.Kept layout capacity most)
    (haccepts : Accepts usage.log usage.appender room fitting) {act : Act}
    (happender : act.appends → ∃ count ≤ most, usage.appender = layout.appenderAt count) :
    (∃ index, (usage.act act).2 = .appended index) ↔
      act.Fits layout.words ∧ fitting < room := by
  have hdoes := h.act act happender
  obtain rfl := h.log.layout_eq
  cases act with
  | append given =>
      change (∃ index, (usage.append given).2 = .appended index) ↔ given.length ≤ _ ∧ _
      rw [usage.append_answer given]
      rcases Nat.lt_or_ge usage.log.layout.words given.length with hwide | hlength
      · simp only [haccepts.wide given hwide, Answer.ofProblem, Problem.of]
        simp only [reduceCtorEq, exists_false, false_iff, not_and]
        omega
      · rcases Nat.lt_or_ge fitting room with hmore | hnone
        · simp [(haccepts.accepted hmore).1 given hlength, hlength, hmore]
        · simp [(haccepts.full hnone).1 given hlength, full, Answer.ofProblem, Problem.of, hnone]
  | appendWith fill =>
      change (∃ index, (usage.appendWith fill).2 = .appended index) ↔ (∀ edit ∈ fill, _) ∧ _
      rw [usage.appendWith_answer fill]
      rcases Nat.lt_or_ge fitting room with hmore | hnone
      · by_cases hworks : ∀ edit ∈ fill, edit.Works usage.log.layout.words
        · simp only [(haccepts.accepted hmore).2 fill hworks, Answer.appended.injEq, hmore,
            and_true]
          exact ⟨fun _ => hworks, fun _ => ⟨fitting, rfl⟩⟩
        · obtain ⟨fault, hfault⟩ := haccepts.broken hmore fill (by simpa using hworks)
          simp only [hfault, Answer.ofProblem, hworks, false_and, reduceCtorEq, exists_false]
      · simp [(haccepts.full hnone).2 fill, full, Answer.ofProblem, Problem.of, hnone]
  | _ =>
      generalize usage.act _ = result at hdoes
      cases hdoes with
      | committed after count happends hbefore hafter hkept => cases happends
      | stayed after answer happender htaken hkept hanswer hfault =>
          refine ⟨?_, fun hfits => hfits.1.elim⟩
          rintro ⟨index, hindex⟩
          exact absurd hindex (hanswer index)

/-! ### One session -/

namespace Sessions

/-- The appender is out, and so many appends that fit have been made with it. -/
structure Underway (sessions : Sessions) (layout : Layout) (capacity room fitting : Nat) :
    Prop where
  kept : sessions.Kept layout capacity
  taken : sessions.usage.log.appenderTaken
  holds : sessions.usage.log.room = room
  counted : sessions.counts.head? = some (min fitting room)

section Underway

variable {sessions : Sessions} {layout : Layout} {capacity room fitting : Nat}
  (h : sessions.Underway layout capacity room fitting)

include h

theorem Underway.accepts : Accepts sessions.usage.log sessions.usage.appender room fitting := by
  obtain ⟨count, rest, hcounts, hcount, happender⟩ := h.kept.current h.taken
  obtain rfl := h.holds
  have hcounted := h.counted
  rw [hcounts, List.head?_cons, Option.some.injEq] at hcounted
  rw [happender]
  exact h.kept.usage.log.accepts hcount hcounted

theorem Underway.use (act : Act) : (sessions.use act).Underway layout capacity room
    (fitting + if act.Fits layout.words then 1 else 0) := by
  have hout : act.appends → sessions.usage.log.appenderTaken := fun _ => h.taken
  have hkept := h.kept.use hout
  have htaken := h.kept.usage.taken fun happends => h.kept.holder (hout happends)
  have hiff := h.kept.usage.appended_iff h.accepts fun happends => h.kept.holder (hout happends)
  have hcounted := h.counted
  have hroom : (sessions.use act).usage.log.room = room := by
    rw [← h.holds, Log.room, Log.room, hkept.usage.log.layout_eq, hkept.usage.log.capacity_eq,
      h.kept.usage.log.layout_eq, h.kept.usage.log.capacity_eq]
  refine ⟨hkept, ?_, hroom, ?_⟩
  · rw [use_log, htaken]
    exact h.taken
  · by_cases happended : ∃ index, (sessions.usage.act act).2 = .appended index
    · obtain ⟨hfits, hmore⟩ := hiff.mp happended
      rw [use_appended happended, List.head?_modifyHead, hcounted, if_pos hfits, Option.map_some]
      congr 1
      omega
    · rw [use_other happended, hcounted]
      congr 1
      split_ifs with hfits
      · have hnone : ¬ fitting < room := fun hmore => happended (hiff.mpr ⟨hfits, hmore⟩)
        omega
      · rfl

theorem Underway.uses (acts : List Act) :
    (sessions.run (acts.map .use)).Underway layout capacity room
      (fitting + acts.countP (·.Fits layout.words)) := by
  unfold run
  induction acts generalizing sessions fitting with
  | nil => exact h
  | cons first rest ih =>
      have hfirst : sessions.call (.use first) = sessions.use first :=
        if_neg fun habsent => habsent.2 h.taken
      have hrest := ih (h.use first)
      rw [List.map_cons, List.foldl_cons, hfirst, List.countP_cons]
      simp only [decide_eq_true_eq]
      rwa [Nat.add_comm (List.countP _ rest), ← Nat.add_assoc]

end Underway

/-- With a free appender a session starts. -/
theorem Kept.underway {sessions : Sessions} {layout : Layout} {capacity : Nat}
    (h : sessions.Kept layout capacity) (hfree : sessions.usage.log.appenderTaken = false) :
    (sessions.call .take).Underway layout capacity
      ((capacity - alignment - layout.bytes) / layout.span + 1) 0 := by
  have hkept := h.call .take
  have htake : sessions.usage.log.takeAppender =
      .ok ({ sessions.usage.log with appenderTaken := true }, ⟨0, 0⟩) :=
    if_neg (by simp [hfree])
  have htaken : (sessions.call .take).usage.log.appenderTaken ∧
      (sessions.call .take).counts.head? = some 0 := by
    unfold Sessions.call
    rw [htake]
    exact ⟨rfl, rfl⟩
  refine ⟨hkept, htaken.1, ?_, ?_⟩
  · rw [Log.room, hkept.usage.log.layout_eq, hkept.usage.log.capacity_eq]
  · rw [Nat.zero_min]
    exact htaken.2

/-- A session of appends with a log that has been created, whatever was done with it before. -/
theorem begin_underway {stages bytes : Nat} {layout : Layout} {storage after : Storage}
    {directory name : String} {log : Log} (hlayout : Layout.ofStages stages = .ok layout)
    (hcreate : create storage directory name layout bytes = (after, .ok log)) {calls : List Call}
    (hfree : ((begin log).run calls).usage.log.appenderTaken = false) (acts : List Act) :
    ((begin log).run (calls ++ .take :: acts.map .use)).Underway layout log.capacity
      ((log.capacity - 64 - layout.bytes) / layout.span + 1)
      (acts.countP (·.Fits layout.words)) := by
  have huses := (((begin_kept hlayout hcreate).run calls).underway hfree).uses acts
  rw [Nat.zero_add] at huses
  rw [run_append]
  exact huses

end Sessions

/-- How many records a log of a layout takes. The distance between two bodies is `layout.span`, the
length of a body and a header rounded up to the boundary. A file has the bytes asked for in whole
pages, and one page at least. Whatever was done with the log before, an appender accepts the first
`room` appends that fit and refuses all others. By `enough` a log of `bytesFor records` bytes has
that very size and takes all these records. -/
structure CapacityLaw (layout : Layout) : Prop where
  pages : ∀ {storage after directory name bytes log},
    create storage directory name layout bytes = (after, .ok log) →
      log.capacity = (max bytes 4096 + 4095) / 4096 * 4096 ∧ 64 + layout.bytes ≤ log.capacity
  session : ∀ {storage after directory name bytes log},
    create storage directory name layout bytes = (after, .ok log) →
    ∀ calls, ((Sessions.begin log).run calls).usage.log.appenderTaken = false →
    ∀ acts : List Act,
      let sessions := (Sessions.begin log).run (calls ++ .take :: acts.map .use)
      let room := (log.capacity - 64 - layout.bytes) / layout.span + 1
      let fitting := acts.countP (·.Fits layout.words)
      sessions.usage.log.layout = layout ∧ sessions.usage.log.capacity = log.capacity ∧
        sessions.counts.head? = some (min fitting room) ∧
        Accepts sessions.usage.log sessions.usage.appender room fitting
  overflow : ∀ records, (layout.bytesFor records = .error .addOverflow ∨
    layout.bytesFor records = .error .multiplyOverflow) ↔
      wordLimit - 4096 < 64 + layout.span * records
  bytes : ∀ records, 64 + layout.span * records ≤ wordLimit - 4096 →
    ∃ bytes, layout.bytesFor records = .ok bytes ∧ capacityFor bytes = .ok bytes ∧
      64 + layout.span * records ≤ bytes ∧ bytes < 64 + layout.span * records + 4096
  enough : ∀ {records storage after directory name bytes log},
    layout.bytesFor records = .ok bytes →
    create storage directory name layout bytes = (after, .ok log) → log.capacity = bytes ∧
    ∀ calls, ((Sessions.begin log).run calls).usage.log.appenderTaken = false →
    ∀ acts : List Act, acts.countP (·.Fits layout.words) ≤ records →
      ((Sessions.begin log).run (calls ++ .take :: acts.map .use)).counts.head? =
        some (acts.countP (·.Fits layout.words))

/-- Every layout has its capacity law. -/
theorem capacity_law {stages : Nat} {layout : Layout}
    (hlayout : Layout.ofStages stages = .ok layout) : CapacityLaw layout := by
  have hvalid := (Layout.ofStages_ok hlayout).1
  constructor
  case pages =>
    intro storage after directory name bytes log hcreate
    have hcapacity := create_capacity hcreate
    have hfew := hvalid.few_stages
    have hbytes := layout.bytes_eq
    unfold capacityFor Checked.roundUp Checked.mul at hcapacity
    split_ifs at hcapacity
    have hpages := Except.ok.inj hcapacity
    simp only [pageBytes, maxStages] at *
    omega
  case session =>
    intro storage after directory name bytes log hcreate calls hfree acts
    have h := Sessions.begin_underway hlayout hcreate hfree acts
    exact ⟨h.kept.usage.log.layout_eq, h.kept.usage.log.capacity_eq, h.counted, h.accepts⟩
  case overflow => exact bytesFor_overflow hvalid
  case bytes => exact bytesFor_fits hvalid
  case enough =>
    intro records storage after directory name bytes log hbytes hcreate
    have hcapacity := create_bytesFor hvalid hbytes hcreate
    refine ⟨hcapacity, fun calls hfree acts hfew => ?_⟩
    have hroom := bytesFor_room hvalid hbytes
    have h := (Sessions.begin_underway hlayout hcreate hfree acts).counted
    rwa [hcapacity, Nat.min_eq_left (Nat.le_trans hfew hroom)] at h

/-- A page takes seven records of the widest layout, and a broken fill and a record that is too wide
take up no room. -/
theorem capacity_law_widest :
    let log : Log := ⟨"main", "/main.log", 4096, ⟨62⟩, .zeros, 0, 0, 0, false⟩
    let acts : List Act := [.append [6], .appendWith [.stamp 0 7, .stamp 63 7], .append [5, 8],
      .append (List.replicate 65 9), .append [4], .append [3], .tail, .next 0, .append [2],
      .appendWith [.remaining 1], .append [0], .append [9], .append []]
    let sessions := (Sessions.begin log).run
      ([.take, .use (.append [7]), .release] ++ .take :: acts.map .use)
    Layout.bytesFor ⟨62⟩ 7 = .ok 4096 ∧ acts.countP (·.Fits 64) = 9 ∧
      sessions.counts.head? = some 7 ∧
      Accepts sessions.usage.log sessions.usage.appender 7 9 ∧
      Layout.bytesFor ⟨62⟩ 32025597350190187 = .error .multiplyOverflow := by
  intro log acts sessions
  have hlaw : CapacityLaw ⟨62⟩ := @capacity_law 62 ⟨62⟩ rfl
  have hcreate : create .empty "/" "main" ⟨62⟩ 100 =
      ((create .empty "/" "main" ⟨62⟩ 100).1, .ok log) := Prod.ext rfl rfl
  obtain ⟨-, -, hcounts, haccepts⟩ := hlaw.session hcreate
    [.take, .use (.append [7]), .release] (by decide) acts
  have hfitting : acts.countP (·.Fits (Layout.words ⟨62⟩)) = 9 := by decide
  have hroom : (log.capacity - 64 - Layout.bytes ⟨62⟩) / Layout.span ⟨62⟩ + 1 = 7 := by decide
  rw [hfitting, hroom] at hcounts haccepts
  simp only [sessions]
  exact ⟨by decide, hfitting, hcounts, haccepts, by decide⟩

end Log

end GatedPipeline
