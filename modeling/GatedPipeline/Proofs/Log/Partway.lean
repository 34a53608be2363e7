import GatedPipeline.Proofs.Log.Contents

/-!
An append in the middle of its stores: the body half written, the filler stored but not the header,
the header stored but not the counters. A record is committed once its header is stored, and by then
all words of its fill stand in memory.
-/

namespace GatedPipeline.Log

/-- How many records have their header stored. -/
def committed (log : Log) : Nat :=
  (List.range log.room).countP fun index =>
    log.word (log.layout.headerAt index) = Header.recordWord log.layout.bytes

/-- The words that a fill gives to record `index` stand in the log. -/
def Stored (log : Log) (index : Nat) (fill : List Edit) : Prop :=
  ∀ word value, Edit.written log.layout.words fill word = some value →
    log.word (log.layout.bodyAt index + word * 8) = value

/-! ### Committed records -/

private theorem countP_lt_range (bound length : Nat) :
    (List.range length).countP (· < bound) = min bound length := by
  induction length with
  | zero => simp
  | succ length ih =>
      rw [List.range_succ, List.countP_append, ih]
      by_cases h : length < bound
      · simp [h]
        omega
      · simp [h]
        omega

/-- The header of a record is never taken for an empty word. -/
theorem recordWord_ne_zero {layout : Layout} (h : layout.Valid) :
    Header.recordWord layout.bytes ≠ 0 := by
  have hbytes : layout.bytes < paddingMark := by
    have hfew := h.few_stages
    have hlength := layout.bytes_eq
    simp only [maxStages, paddingMark] at *
    omega
  intro hzero
  have hheader := Header.ofWord_record _ hbytes
  rw [hzero, Header.ofWord_zero] at hheader
  cases hheader

/-- The frame decides how many records are committed. -/
theorem committed_eq {log : Log} {fillers records : Nat} (hsound : log.Sound)
    (hframe : log.Framed fillers records) (hroom : records ≤ log.room) :
    log.committed = records := by
  have hmarked := recordWord_ne_zero hsound.layout
  have hsame : (fun index => decide (log.word (log.layout.headerAt index) =
      Header.recordWord log.layout.bytes)) = fun index => decide (index < records) := by
    funext index
    rw [hframe.header index]
    by_cases h : index < records
    · simp [h]
    · simp [h, Ne.symm hmarked]
  rw [committed, hsame, countP_lt_range, Nat.min_eq_left hroom]

/-! ### Words already in memory -/

theorem written_lt {words : Nat} {fill : List Edit} {word : Nat} {value : Word}
    (h : Edit.written words fill word = some value) : word < words := by
  induction fill with
  | nil => cases h
  | cons edit rest ih =>
      simp only [Edit.written, Option.or_eq_some_iff] at h
      rcases h with hrest | ⟨-, hfirst⟩
      · exact ih hrest
      · simp only [Edit.writes] at hfirst
        split at hfirst
        · rename_i index other htarget
          split at hfirst
          · rename_i hat
            exact hat ▸ Edit.target_lt htarget
          · cases hfirst
        · cases hfirst

theorem Stored.setFrame {log : Log} {index : Nat} {fill : List Edit} (h : Stored log index fill)
    (place : Layout.Place) (hreal : place.Real log.layout)
    (hplace : ∀ index word, Layout.Place.body index word ≠ place) (value : Word) :
    Stored (log.setWord (place.position log.layout) value) index fill := by
  intro word stored hwritten
  exact (word_setFrame log place hreal hplace value index word (written_lt hwritten)).trans
    (h word stored hwritten)

theorem Stored.setOther {log : Log} {index other word : Nat} {fill : List Edit}
    (h : Stored log index fill) (hne : index ≠ other) (hword : word < log.layout.words)
    (value : Word) :
    Stored (log.setWord (log.layout.bodyAt other + word * 8) value) index fill := by
  intro readWord stored hwritten
  rw [layout_setWord, word_setBody log hword (written_lt hwritten), if_neg (fun hat => hne hat.1)]
  exact h readWord stored hwritten

theorem Stored.snoc {log : Log} {index word : Nat} {fill : List Edit} {edit : Edit} {value : Word}
    (h : Stored log index fill) (htarget : edit.target log.layout.words = .ok (word, value)) :
    Stored (log.setWord (log.layout.bodyAt index + word * 8) value) index (fill ++ [edit]) := by
  intro readWord stored hwritten
  rw [layout_setWord] at hwritten ⊢
  have hlt := written_lt hwritten
  rw [word_setBody log (Edit.target_lt htarget) hlt]
  simp only [Edit.written_append, Edit.written, Edit.writes, htarget, Option.none_or] at hwritten
  by_cases hat : readWord = word
  · simp_all
  · rw [if_neg (Ne.symm hat), Option.none_or] at hwritten
    rw [if_neg (fun h => hat h.2)]
    exact h readWord stored hwritten

/-! ### The append under way -/

/-- How far an append has come: which edits of its fill are still to be stored, or which store of
the commit was the last. -/
inductive Phase where
  | filling (todo : List Edit)
  | padded
  | committed
  | placed
  | counted

namespace Phase

/-- The stores that an append of record `count` still has to make. -/
def rest (layout : Layout) (count : Nat) : Phase → List Store
  | .filling todo =>
      (fillStores (layout.bodyAt count) layout.words todo).1 ++ layout.commitStores count
  | .padded =>
      [.word (layout.headerAt count) (Header.recordWord layout.bytes),
        .writePosition (layout.endAfter (count + 1)), .appended (count + 1)]
  | .committed => [.writePosition (layout.endAfter (count + 1)), .appended (count + 1)]
  | .placed => [.appended (count + 1)]
  | .counted => []

def todo : Phase → List Edit
  | .filling todo => todo
  | .padded | .committed | .placed | .counted => []

def fillers (count : Nat) : Phase → Nat
  | .filling _ => count
  | .padded | .committed | .placed | .counted => count + 1

def records (count : Nat) : Phase → Nat
  | .filling _ | .padded => count
  | .committed | .placed | .counted => count + 1

def appended (count : Nat) : Phase → Nat
  | .filling _ | .padded | .committed | .placed => count
  | .counted => count + 1

theorem bounds (count : Nat) (phase : Phase) : count ≤ phase.records count ∧
    phase.records count ≤ phase.fillers count ∧ phase.fillers count ≤ count + 1 ∧
    phase.appended count ≤ phase.records count ∧
    phase.records count ≤ phase.appended count + 1 := by
  cases phase <;> simp [records, fillers, appended]

theorem rest_nil {layout : Layout} {count : Nat} {phase : Phase}
    (h : phase.rest layout count = []) : phase = .counted := by
  cases phase with
  | filling todo => simp [rest, Layout.commitStores] at h
  | counted => rfl
  | _ => cases h

end Phase

/-- A log in the middle of the append of record `count`. Which of the filler, the words and the
header are in memory depends on the phase of the append. -/
structure Partway (log : Log) (count : Nat) (fill : List Edit) (phase : Phase) : Prop where
  sound : log.Sound
  framed : log.Framed (phase.fillers count) (phase.records count)
  appended : log.appended = phase.appended count
  stored : ∃ done, done ++ phase.todo = fill ∧ Stored log count done

section Partway

variable {log : Log} {count : Nat} {fill : List Edit} {first : Store} {rest : List Store}

/-- The next store: the append comes one phase further, and the other records keep their words. -/
structure Onward (log : Log) (count : Nat) (fill : List Edit) (phase next : Phase) (first : Store)
    (rest : List Store) : Prop where
  rest : next.rest log.layout count = rest
  partway : Partway (log.store first) count fill next
  records : phase.records count ≤ next.records count
  others : ∀ index other, index ≠ count → Stored log index other →
    Stored (log.store first) index other

private theorem Partway.storeHeader (h : log.Framed (count + 1) count) (hsound : log.Sound)
    (happended : log.appended = count) (hstored : Stored log count fill) :
    Partway (log.store (.word (log.layout.headerAt count) (Header.recordWord log.layout.bytes)))
      count fill .committed :=
  ⟨hsound.setWord _ _, h.setHeader, happended, fill, List.append_nil fill,
    hstored.setFrame (.header count) trivial (by simp) _⟩

private theorem Partway.storeFill {edit : Edit} {todo : List Edit}
    (h : Partway log count fill (.filling (edit :: todo)))
    (hworks : ∀ edit ∈ fill, edit.Works log.layout.words)
    (hrest : (Phase.filling (edit :: todo)).rest log.layout count = first :: rest) :
    Onward log count fill (.filling (edit :: todo)) (.filling todo) first rest := by
  obtain ⟨done, hsplit, hstored⟩ := h.stored
  obtain ⟨⟨word, value⟩, htarget⟩ := hworks edit (by simp [← hsplit, Phase.todo])
  have hword := Edit.target_lt htarget
  simp only [Phase.rest, fillStores, htarget] at hrest
  obtain ⟨rfl, rfl⟩ := List.cons.inj hrest
  refine ⟨rfl, ⟨h.sound.setWord _ _, h.framed.setBody hword value, h.appended, done ++ [edit], ?_,
    hstored.snoc htarget⟩, Nat.le_refl _,
    fun index other hne hkept => hkept.setOther hne hword value⟩
  simpa [Phase.todo] using hsplit

private theorem Partway.storeFirst (h : Partway log count fill (.filling []))
    (hrest : (Phase.filling []).rest log.layout count = first :: rest) :
    ∃ next, Onward log count fill (.filling []) next first rest := by
  obtain ⟨done, hsplit, hstored⟩ := h.stored
  have hbounds := log.layout.entry_bounds count
  simp only [Phase.todo, List.append_nil] at hsplit
  subst hsplit
  simp only [Phase.rest, fillStores, List.nil_append, Layout.commitStores, paddingStores] at hrest
  by_cases hgap : log.layout.headerAt count = log.layout.endAfter count
  · rw [if_pos hgap] at hrest
    obtain ⟨rfl, rfl⟩ := List.cons.inj hrest
    have hskipped := h.framed.skipFiller (show ¬ _ < _ by simp only [Phase.fillers]; omega)
    exact ⟨.committed, rfl, .storeHeader hskipped h.sound h.appended hstored,
      by simp [Phase.records], fun index other _ hkept =>
        hkept.setFrame (.header count) trivial (by simp) _⟩
  · rw [if_neg hgap] at hrest
    obtain ⟨rfl, rfl⟩ := List.cons.inj hrest
    have hreal : (Layout.Place.filler count).Real log.layout := by
      simp only [Layout.Place.Real]
      omega
    exact ⟨.padded, rfl, ⟨h.sound.setWord _ _, h.framed.setFiller hreal, h.appended, _,
      List.append_nil _, hstored.setFrame (.filler count) hreal (by simp) _⟩,
      by simp [Phase.records],
      fun index other _ hkept => hkept.setFrame (.filler count) hreal (by simp) _⟩

/-- Every store of an append takes it one phase further. -/
theorem Partway.store {phase : Phase} (h : Partway log count fill phase)
    (hworks : ∀ edit ∈ fill, edit.Works log.layout.words) (hroom : count < log.room)
    (hrest : phase.rest log.layout count = first :: rest) :
    ∃ next, Onward log count fill phase next first rest := by
  cases phase with
  | filling todo =>
      cases todo with
      | nil => exact h.storeFirst hrest
      | cons edit todo => exact ⟨.filling todo, h.storeFill hworks hrest⟩
  | padded =>
      obtain ⟨done, hsplit, hstored⟩ := h.stored
      simp only [Phase.todo, List.append_nil] at hsplit
      subst hsplit
      obtain ⟨rfl, rfl⟩ := List.cons.inj hrest
      exact ⟨.committed, rfl, .storeHeader h.framed h.sound h.appended hstored,
        by simp [Phase.records], fun index other _ hkept =>
          hkept.setFrame (.header count) trivial (by simp) _⟩
  | committed =>
      obtain ⟨rfl, rfl⟩ := List.cons.inj hrest
      have hend := (lt_room_iff h.sound count).mp hroom
      exact ⟨.placed, rfl, ⟨⟨h.sound.layout, h.sound.pages, h.sound.one_page, h.sound.small,
        h.sound.touched, hend⟩, h.framed.of_words rfl rfl, h.appended, h.stored⟩, Nat.le_refl _,
        fun _ _ _ hkept => hkept⟩
  | placed =>
      obtain ⟨rfl, rfl⟩ := List.cons.inj hrest
      exact ⟨.counted, rfl, ⟨⟨h.sound.layout, h.sound.pages, h.sound.one_page, h.sound.small,
        h.sound.touched, h.sound.written⟩, h.framed.of_words rfl rfl, rfl, h.stored⟩,
        Nat.le_refl _, fun _ _ _ hkept => hkept⟩
  | counted => cases hrest

end Partway

theorem fillStores_body (body words : Nat) (fill : List Edit) :
    ∀ store ∈ (fillStores body words fill).1,
      ∃ word value, word < words ∧ store = .word (body + word * 8) value := by
  intro store h
  induction fill with
  | nil => cases h
  | cons edit rest ih =>
      cases htarget : edit.target words with
      | error fault => simp [fillStores, htarget] at h
      | ok target =>
          simp only [fillStores, htarget, List.mem_cons] at h
          rcases h with rfl | hrest
          · exact ⟨target.1, target.2, Edit.target_lt htarget, rfl⟩
          · exact ih hrest

theorem works_of_fillStores (body words : Nat) (fill : List Edit)
    (h : (fillStores body words fill).2 = .ok ()) : ∀ edit ∈ fill, edit.Works words := by
  induction fill with
  | nil => simp
  | cons edit rest ih =>
      cases htarget : edit.target words with
      | error fault => simp [fillStores, htarget] at h
      | ok target =>
          simp only [fillStores, htarget] at h
          intro other hother
          rcases List.mem_cons.mp hother with rfl | hrest
          · exact ⟨target, htarget⟩
          · exact ih h other hrest

end GatedPipeline.Log
