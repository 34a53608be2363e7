import GatedPipeline.Proofs.Log.Sessions

/-!
Which memory the operations of a log reach. The words that an operation loads or stores, and the
views it makes, are listed as the operation goes through them. Over every history all of them lie
in the file on word boundaries, so nothing that checks an access or a sum on the way can ever fire:
an operation breaks only where its caller hands it an edit that no record can take.
-/

namespace GatedPipeline.Log

/-- One access to the file: a single word, or the words of a view. -/
inductive Access where
  | word (position : Nat)
  | words (view : View)
  deriving DecidableEq, Repr

/-- The access lies in a file of so many bytes, and a view has the words of one record. -/
def Access.Inside (capacity width : Nat) : Access → Prop
  | .word position => position % 8 = 0 ∧ position + 8 ≤ capacity
  | .words view => view.body % 8 = 0 ∧ view.body + view.words * 8 ≤ capacity ∧ view.words = width

/-- The word that a store goes to; the two counters are not in the file. -/
def Store.access : Store → Option Access
  | .word position _ => some (.word position)
  | .writePosition _ | .appended _ => none

/-- The words that a header load can find: nothing, a filler or a committed record. -/
def Header.Proper (layout : Layout) (word : Word) : Prop :=
  word = 0 ∨ (∃ skip, 0 < skip ∧ skip < alignment ∧ word = paddingWord skip) ∨
    word = recordWord layout.bytes

end GatedPipeline.Log

namespace GatedPipeline.Tailer

/-- The header words that a read loads. -/
def headers (log : Log) (tailer : Tailer) : List Nat := tailer.loads log (log.capacity / 8 + 1)

/-- The accesses of a read: its header loads and the view of the record it finds. -/
def accesses (log : Log) (tailer : Tailer) : List Log.Access :=
  (tailer.headers log).map .word ++
    match tailer.read log with
    | (_, .ok (some entry)) => [.words entry.view]
    | _ => []

end GatedPipeline.Tailer

namespace GatedPipeline.Log

namespace Usage

/-- The cursors from which an act reads, one after the other. -/
def reads (usage : Usage) : Act → List Tailer
  | .next cursor => usage.tailers[cursor]?.toList
  | .seek cursor index =>
      match usage.tailers[cursor]? with
      | none => []
      | some tailer =>
          let origin := if index < tailer.next then .start else tailer
          origin.stops usage.log (index - origin.next)
  | _ => []

/-- The accesses of an append: the view lent to its fill, and the words it stores. -/
def storing (usage : Usage) (fill : List Edit) : List Access :=
  match usage.log.slot usage.appender with
  | .error _ => []
  | .ok slot =>
      .words ⟨slot.body, usage.log.layout.words⟩ ::
        (usage.log.plan usage.appender fill).stores.filterMap Store.access

def touching (usage : Usage) : List Access :=
  ((usage.log.pretouch.toOption.map Prod.snd).getD []).map .word

def accesses (usage : Usage) : Act → List Access
  | .append words =>
      if usage.log.layout.words < words.length then [] else usage.storing (editsOf words)
  | .appendWith fill => usage.storing fill
  | .next cursor => (usage.reads (.next cursor)).flatMap (Tailer.accesses usage.log)
  | .seek cursor index => (usage.reads (.seek cursor index)).flatMap (Tailer.accesses usage.log)
  | .edit view change =>
      match usage.views[view]? with
      | none => []
      | some held =>
          match change.target held.words with
          | .error _ => []
          | .ok (word, _) => [.word (held.body + word * 8)]
  | .look view => usage.views[view]?.toList.map .words
  | .pretouch => usage.touching
  | .tail | .count => []

/-- An act reaches no memory but the file's, meets no header that is none, makes views of whole
records only, and breaks by its caller's own fault alone. -/
structure Safe (usage : Usage) (layout : Layout) (capacity : Nat) (act : Act) : Prop where
  small : (capacity : Int) < signedLimit
  mapped : usage.log.capacity = capacity
  inside : ∀ access ∈ usage.accesses act, access.Inside capacity layout.words
  headers : ∀ tailer ∈ usage.reads act, ∀ position ∈ tailer.headers usage.log,
    Header.Proper layout (usage.log.word position)
  views : ∀ view ∈ (usage.act act).1.views ++ usage.lent act, view.words = layout.words
  slot : act.appends → ∀ fault, usage.log.slot usage.appender ≠ .error (.broken fault)
  faults : ∀ fault, (usage.act act).2 = .broken fault → act.Causes layout.words fault

end Usage

theorem Placed.inside {layout : Layout} {capacity : Nat} {view : View}
    (h : Placed layout capacity view) : (Access.words view).Inside capacity layout.words := by
  obtain ⟨index, hfits, rfl⟩ := h
  have haligned := layout.bodyAt_aligned index
  refine ⟨?_, hfits, rfl⟩
  simp only [Layout.viewAt]
  omega

theorem place_inside {layout : Layout} {capacity : Nat} (place : Layout.Place)
    (hreal : place.Real layout) (hfits : layout.endAfter (place.record + 1) ≤ capacity)
    (width : Nat) : (Access.word (place.position layout)).Inside capacity width :=
  ⟨place.position_aligned layout,
    Nat.le_trans (place.position_within layout hreal).2 hfits⟩

/-- What the check of an access lets pass. -/
theorem access_inside {log : Log} {position words : Nat} (h : log.access position words = .ok ()) :
    position % 8 = 0 ∧ position + words * 8 ≤ log.capacity := by
  obtain ⟨stop, hstop, hcheck⟩ := bind_ok_iff.mp h
  rw [Checked.add_exact hstop] at hcheck
  split_ifs at hcheck with hinside
  exact hinside

/-! ### Reading -/

section Reading

variable {log : Log} {layout : Layout} {capacity most index : Nat} {tailer : Tailer}
  (h : log.Kept layout capacity most) (hindex : index ≤ most) (hstands : tailer.Stands layout index)

include h hindex hstands

theorem Kept.headers : ∀ position ∈ tailer.headers log,
    (Access.word position).Inside capacity layout.words ∧
      Header.Proper layout (log.word position) := by
  obtain rfl := h.layout_eq
  obtain rfl := h.capacity_eq
  intro position hposition
  obtain ⟨hinside, place, hreal, hplace, rfl⟩ :=
    (Tailer.loads_stands h.sound h.framed h.fits _ hindex hstands).2 position hposition
  refine ⟨⟨place.position_aligned _, hinside⟩, ?_⟩
  rcases hplace with rfl | rfl
  · have hword : log.word ((Layout.Place.filler index).position log.layout) = _ :=
      h.framed.filler index hreal
    have hgap := (log.layout.entry_bounds index).2.1
    rw [hword]
    split_ifs
    · refine .inr (.inl ⟨_, Nat.sub_pos_of_lt hreal, ?_, rfl⟩)
      simp only [alignment]
      omega
    · exact .inl rfl
  · have hword : log.word ((Layout.Place.header index).position log.layout) = _ :=
      h.framed.header index
    rw [hword]
    split_ifs
    · exact .inr (.inr rfl)
    · exact .inl rfl

theorem Kept.accesses : ∀ access ∈ tailer.accesses log, access.Inside capacity layout.words := by
  have hheaders := h.headers hindex hstands
  obtain rfl := h.layout_eq
  obtain rfl := h.capacity_eq
  have hread := Tailer.read_stands h.sound h.framed h.fits hindex hstands
  intro access haccess
  unfold Tailer.accesses at haccess
  rw [hread] at haccess
  rcases List.mem_append.mp haccess with hload | hview
  · obtain ⟨position, hposition, rfl⟩ := List.mem_map.mp hload
    exact (hheaders position hposition).1
  · split_ifs at hview with hmore
    · obtain rfl := List.mem_singleton.mp hview
      apply Placed.inside
      have hfits := (lt_room_iff h.sound index).mp (Nat.lt_of_lt_of_le hmore h.fits)
      exact ⟨index, hfits, rfl⟩
    · cases hview

end Reading

/-! ### Acts -/

namespace Usage

section Kept

variable {usage : Usage} {layout : Layout} {capacity most : Nat}
  (h : usage.Kept layout capacity most)

include h

theorem Kept.reads (act : Act) :
    ∀ tailer ∈ usage.reads act, ∃ index ≤ most, tailer.Stands layout index := by
  intro tailer htailer
  cases act with
  | next cursor =>
      have hheld : usage.tailers[cursor]? = some tailer := by simpa [Usage.reads] using htailer
      exact h.tailers tailer (List.mem_of_getElem? hheld)
  | seek cursor index =>
      simp only [Usage.reads] at htailer
      cases hheld : usage.tailers[cursor]? with
      | none => simp [hheld] at htailer
      | some held =>
          obtain ⟨current, hcurrent, hstands⟩ := h.tailers held (List.mem_of_getElem? hheld)
          simp only [hheld] at htailer
          obtain rfl := h.log.layout_eq
          have horigin : ∃ index' ≤ most, (if index < held.next then .start else held).Stands
              usage.log.layout index' := by
            split_ifs
            · exact ⟨0, Nat.zero_le _, Tailer.start_stands _⟩
            · exact ⟨current, hcurrent, hstands⟩
          obtain ⟨origin, horigin, hfrom⟩ := horigin
          exact Tailer.stops_stand h.log.sound h.log.framed h.log.fits _ horigin hfrom tailer
            htailer
  | _ => cases htailer

theorem Kept.reading (act : Act) :
    ∀ access ∈ (usage.reads act).flatMap (Tailer.accesses usage.log),
      access.Inside capacity layout.words := by
  intro access haccess
  obtain ⟨tailer, htailer, hread⟩ := List.mem_flatMap.mp haccess
  obtain ⟨index, hindex, hstands⟩ := h.reads act tailer htailer
  exact h.log.accesses hindex hstands access hread

/-- What an append stores lies in the slot of its record or in the gap in front of it. -/
theorem Kept.storing {count : Nat} (hcount : count ≤ most)
    (happender : usage.appender = layout.appenderAt count) (fill : List Edit) :
    ∀ access ∈ usage.storing fill, access.Inside capacity layout.words := by
  obtain rfl := h.log.layout_eq
  obtain rfl := h.log.capacity_eq
  have hroom := Nat.le_trans hcount h.log.fits
  intro access haccess
  unfold Usage.storing at haccess
  rw [happender, plan_eq h.log.sound hroom fill, slot_eq h.log.sound hroom] at haccess
  split_ifs at haccess with hmore
  · have hfits := (lt_room_iff h.log.sound count).mp hmore
    have hbody : ∀ store ∈
        (fillStores (usage.log.layout.bodyAt count) usage.log.layout.words fill).1,
        ∀ access, store.access = some access →
          access.Inside usage.log.capacity usage.log.layout.words := by
      intro store hstore access haccess
      obtain ⟨word, value, hword, rfl⟩ := fillStores_body _ _ fill store hstore
      cases haccess
      exact place_inside (.body count word) hword hfits _
    have hcommit : ∀ store ∈ usage.log.layout.commitStores count,
        ∀ access, store.access = some access →
          access.Inside usage.log.capacity usage.log.layout.words := by
      intro store hstore access haccess
      rcases Layout.mem_commitStores hstore with rfl | ⟨rfl, hreal⟩ | rfl | rfl <;> cases haccess
      · exact place_inside (.header count) trivial hfits _
      · exact place_inside (.filler count) hreal hfits _
    rcases List.mem_cons.mp haccess with rfl | hstored
    · exact Placed.inside ⟨count, hfits, rfl⟩
    · obtain ⟨store, hstore, hat⟩ := List.mem_filterMap.mp hstored
      revert hbody hstore
      rcases fillStores (usage.log.layout.bodyAt count) usage.log.layout.words fill with
        ⟨stores, fault | ⟨⟩⟩
      · intro hbody hstore
        exact hbody store hstore access hat
      · intro hbody hstore
        rcases List.mem_append.mp hstore with hfilled | hcommitted
        · exact hbody store hfilled access hat
        · exact hcommit store hcommitted access hat
  · cases haccess

theorem Kept.touching : ∀ access ∈ usage.touching, access.Inside capacity layout.words := by
  obtain ⟨reached, pages, hpretouch, -, hpages⟩ := pretouch_sound h.log.sound
  obtain rfl := h.log.capacity_eq
  intro access haccess
  unfold Usage.touching at haccess
  rw [hpretouch] at haccess
  obtain ⟨page, hpage, rfl⟩ := List.mem_map.mp haccess
  exact access_inside (hpages page hpage)

theorem Kept.inside {act : Act}
    (happender : act.appends → ∃ count ≤ most, usage.appender = layout.appenderAt count) :
    ∀ access ∈ usage.accesses act, access.Inside capacity layout.words := by
  have hstoring : act.appends → ∀ fill, ∀ access ∈ usage.storing fill,
      access.Inside capacity layout.words := by
    intro happends fill
    obtain ⟨count, hcount, hstands⟩ := happender happends
    exact h.storing hcount hstands fill
  cases act with
  | append words =>
      intro access haccess
      simp only [Usage.accesses] at haccess
      split_ifs at haccess
      · cases haccess
      · exact hstoring rfl _ access haccess
  | appendWith fill => exact hstoring rfl fill
  | next cursor => exact h.reading (.next cursor)
  | seek cursor index => exact h.reading (.seek cursor index)
  | edit view change =>
      intro access haccess
      simp only [Usage.accesses] at haccess
      cases hheld : usage.views[view]? with
      | none => simp [hheld] at haccess
      | some held =>
          obtain ⟨index, hfits, rfl⟩ := h.views held (List.mem_of_getElem? hheld)
          cases htarget : change.target layout.words with
          | error fault => simp [hheld, Layout.viewAt, htarget] at haccess
          | ok target =>
              simp only [hheld, Layout.viewAt, htarget, List.mem_singleton] at haccess
              subst haccess
              exact place_inside (.body index target.1) (Edit.target_lt htarget) hfits _
  | look view =>
      intro access haccess
      obtain ⟨held, hheld, rfl⟩ := List.mem_map.mp haccess
      apply Placed.inside
      exact h.views held (List.mem_of_getElem? (Option.mem_toList.mp hheld))
  | pretouch => exact h.touching
  | tail => simp [Usage.accesses]
  | count => simp [Usage.accesses]

/-- In a log that keeps its frame every act is safe. -/
theorem Kept.safe {act : Act}
    (happender : act.appends → ∃ count ≤ most, usage.appender = layout.appenderAt count) :
    usage.Safe layout capacity act := by
  have hdoes := h.act act happender
  constructor
  case small =>
    rw [← h.log.capacity_eq]
    exact h.log.sound.small
  case mapped => exact h.log.capacity_eq
  case inside => exact h.inside happender
  case headers =>
    intro tailer htailer position hposition
    obtain ⟨index, hindex, hstands⟩ := h.reads act tailer htailer
    exact (h.log.headers hindex hstands position hposition).2
  case views =>
    have hplaced : ∀ view ∈ (usage.act act).1.views, Placed layout capacity view := by
      generalize usage.act act = result at hdoes
      cases hdoes with
      | committed after count happends hbefore hafter hkept => exact hkept.views
      | stayed after answer happender htaken hkept hanswer hfault => exact hkept.views
    intro view hview
    rcases List.mem_append.mp hview with hheld | hlent
    · exact (hplaced view hheld).inside.2.2
    · exact (h.lent_placed happender view hlent).inside.2.2
  case slot =>
    intro happends fault hslot
    obtain ⟨count, hcount, hstands⟩ := happender happends
    rw [hstands, ← h.log.layout_eq, slot_eq h.log.sound (Nat.le_trans hcount h.log.fits)] at hslot
    split_ifs at hslot
    cases hslot
  case faults =>
    generalize usage.act act = result at hdoes
    cases hdoes with
    | committed after count happends hbefore hafter hkept => simp
    | stayed after answer happender htaken hkept hanswer hfault => exact hfault

end Kept

end Usage

/-- Over every history of a log, every act on it is safe. -/
theorem Sessions.run_safe {storage after : Storage} {directory name : String}
    {stages bytes : Nat} {layout : Layout} {log : Log}
    (hlayout : Layout.ofStages stages = .ok layout)
    (hcreate : Log.create storage directory name layout bytes = (after, .ok log))
    (calls : List Call) (act : Act)
    (hout : act.appends → ((Sessions.begin log).run calls).usage.log.appenderTaken) :
    ((Sessions.begin log).run calls).usage.Safe layout log.capacity act := by
  have hkept := (Sessions.begin_kept hlayout hcreate).run calls
  exact hkept.usage.safe fun happends => hkept.holder (hout happends)

/-- The append behind a broken fill of a second session reaches the slot of its record, the filler
in front of it and its header. -/
theorem Sessions.run_safe_second_session :
    let usage := ((Sessions.begin ⟨"main", "/main.log", 4096, ⟨1⟩, .zeros, 0, 0, 0, false⟩).run
      [.take, .use (.append [5, 7]), .use (.append [4]), .release, .take, .use (.append [9]),
        .use (.appendWith [.stamp 0 7, .fail (.raised none)]), .use .tail, .use (.next 0)]).usage
    usage.accesses (.appendWith [.stamp 1 6]) =
        [.words ⟨128, 3⟩, .word 144, .word 88, .word 120] ∧
      usage.Safe ⟨1⟩ 4096 (.appendWith [.stamp 1 6]) ∧
      usage.accesses (.seek 0 2) = [.word 88, .word 120, .words ⟨128, 3⟩] ∧
      usage.Safe ⟨1⟩ 4096 (.seek 0 2) := by
  intro usage
  have h : ∀ act : Act, (act.appends → usage.log.appenderTaken) → usage.Safe ⟨1⟩ 4096 act :=
    @Sessions.run_safe .empty _ "/" "main" 1 100 ⟨1⟩
      ⟨"main", "/main.log", 4096, ⟨1⟩, .zeros, 0, 0, 0, false⟩ rfl (Prod.ext rfl rfl) _
  exact ⟨by decide, h _ (by decide), by decide, h _ (by decide)⟩

end GatedPipeline.Log
