import GatedPipeline.Log.Append
import GatedPipeline.Proofs.Log.Frame

/-!
Stores to a framed log. The stores of an append go to the places of one record: first words of its
body, then the filler in front of it, then its header. Each kind of store has one lemma on what it
does to the frame, so an append can be followed store by store as well as in one piece.
-/

namespace GatedPipeline

theorem timeWord_ok {words slot : Nat} (h : slot + 1 < words) (hsmall : words < wordLimit) :
    timeWord words slot = .ok (slot + 1) := by
  have hadd : Checked.add 1 slot = .ok (slot + 1) := by
    rw [Checked.add_ok (by omega), Nat.add_comm]
  simp only [timeWord, hadd, ok_bind, if_pos h]
  rfl

namespace Edit

/-- An edit that does not break on a record of so many words. -/
def Works (words : Nat) (edit : Edit) : Prop := ∃ target, edit.target words = .ok target

instance (words : Nat) (edit : Edit) : Decidable (edit.Works words) :=
  match h : edit.target words with
  | .ok target => .isTrue ⟨target, h⟩
  | .error _ => .isFalse fun ⟨_, hok⟩ => by rw [h] at hok; cases hok

/-- The value that an edit gives to a word of a record. -/
def writes (words : Nat) (edit : Edit) (word : Nat) : Option Word :=
  match edit.target words with
  | .ok (index, value) => if index = word then some value else none
  | .error _ => none

/-- The value that a fill leaves in a word of a record, if it writes that word at all. -/
def written (words : Nat) : (fill : List Edit) → (word : Nat) → Option Word
  | [], _ => none
  | edit :: rest, word => (written words rest word).or (edit.writes words word)

theorem written_append (words : Nat) (first second : List Edit) (word : Nat) :
    written words (first ++ second) word =
      (written words second word).or (written words first word) := by
  induction first with
  | nil => simp [written]
  | cons edit rest ih => simp only [List.cons_append, written, ih, Option.or_assoc]

theorem target_lt {words : Nat} {edit : Edit} {index : Nat} {value : Word}
    (h : edit.target words = .ok (index, value)) : index < words := by
  cases edit with
  | remaining count =>
      simp only [target] at h
      split at h
      · cases h
        assumption
      · cases h
  | stamp slot time =>
      simp only [target, timeWord, bind_ok_iff] at h
      obtain ⟨second, ⟨sum, -, hword⟩, hpair⟩ := h
      split at hword
      · cases hword
        cases hpair
        assumption
      · cases hword
  | fail fault => cases h

theorem target_remaining (words : Nat) (h : 0 < words) (value : Int) :
    (Edit.remaining value).target words = .ok (0, Word.ofSigned value) := if_pos h

theorem target_stamp (words slot : Nat) (h : slot + 1 < words) (hsmall : words < wordLimit)
    (time : Word) : (Edit.stamp slot time).target words = .ok (slot + 1, time) := by
  rw [target, timeWord_ok h hsmall, ok_bind]
  rfl

end Edit

namespace Log

@[simp] theorem layout_store (log : Log) (store : Store) :
    (log.store store).layout = log.layout := by
  cases store <;> rfl

@[simp] theorem capacity_store (log : Log) (store : Store) :
    (log.store store).capacity = log.capacity := by
  cases store <;> rfl

@[simp] theorem layout_storeAll (log : Log) (stores : List Store) :
    (log.storeAll stores).layout = log.layout := by
  induction stores generalizing log with
  | nil => rfl
  | cons store rest ih => exact (ih (log.store store)).trans (layout_store log store)

@[simp] theorem capacity_storeAll (log : Log) (stores : List Store) :
    (log.storeAll stores).capacity = log.capacity := by
  induction stores generalizing log with
  | nil => rfl
  | cons store rest ih => exact (ih (log.store store)).trans (capacity_store log store)

@[simp] theorem room_storeAll (log : Log) (stores : List Store) :
    (log.storeAll stores).room = log.room := by
  simp only [room, layout_storeAll, capacity_storeAll]

theorem storeAll_append (log : Log) (first second : List Store) :
    log.storeAll (first ++ second) = (log.storeAll first).storeAll second :=
  List.foldl_append

/-! ### The frame after one store -/

section Framed

variable {log : Log} {fillers records : Nat}

/-- The frame says nothing but of words, so a log that reads the same has the same frame. -/
theorem Framed.of_reads (h : log.Framed fillers records) {other : Log}
    (hword : ∀ position, other.word position = log.word position)
    (hlayout : other.layout = log.layout) : other.Framed fillers records :=
  ⟨fun index hreal => by
      rw [hword, hlayout]
      exact h.filler index (by rwa [hlayout] at hreal),
    fun index => by
      rw [hword, hlayout]
      exact h.header index,
    fun position haligned hno => by
      rw [hword]
      exact h.blank position haligned (by simpa only [hlayout] using hno)⟩

theorem Framed.of_words (h : log.Framed fillers records) {other : Log}
    (hwords : other.words = log.words) (hlayout : other.layout = log.layout) :
    other.Framed fillers records :=
  h.of_reads (fun position => by simp only [word, hwords]) hlayout

private theorem blank_setPlace (h : log.Framed fillers records) {place : Layout.Place}
    (hreal : place.Real log.layout) (value : Word) (position : Nat) (haligned : position % 8 = 0)
    (hno : ∀ other : Layout.Place, other.Real log.layout → other.position log.layout ≠ position) :
    (log.setWord (place.position log.layout) value).word position = 0 := by
  have hplace := place.position_aligned log.layout
  have hne := hno place hreal
  rw [word_setWord, if_neg (by omega)]
  exact h.blank position haligned hno

theorem Framed.setBody (h : log.Framed fillers records) {index word : Nat}
    (hword : word < log.layout.words) (value : Word) :
    (log.setWord (log.layout.bodyAt index + word * 8) value).Framed fillers records := by
  have hreal : (Layout.Place.body index word).Real log.layout := hword
  refine ⟨?_, ?_, fun position haligned hno =>
    blank_setPlace h hreal value position haligned hno⟩
  · intro other hgap
    have hother := word_setPlace log _ (.filler other) hreal hgap value
    rw [if_neg (by simp)] at hother
    exact hother.trans (h.filler other hgap)
  · intro other
    have hother := word_setPlace log _ (.header other) hreal trivial value
    rw [if_neg (by simp)] at hother
    exact hother.trans (h.header other)

theorem Framed.setFiller (h : log.Framed fillers records)
    (hgap : log.layout.endAfter fillers < log.layout.headerAt fillers) :
    (log.setWord (log.layout.endAfter fillers) (Header.paddingWord
      (log.layout.headerAt fillers - log.layout.endAfter fillers))).Framed
        (fillers + 1) records := by
  have hreal : (Layout.Place.filler fillers).Real log.layout := hgap
  refine ⟨?_, ?_, fun position haligned hno =>
    blank_setPlace h hreal _ position haligned hno⟩
  · intro other hother
    apply (word_setPlace log _ (.filler other) hreal hother _).trans
    by_cases hsame : other = fillers
    · subst hsame
      rw [if_pos rfl, if_pos (Nat.lt_succ_self _)]
      rfl
    · rw [if_neg (by simpa using hsame)]
      apply (h.filler other hother).trans
      simp only [show other < fillers + 1 ↔ other < fillers by omega]
      rfl
  · intro other
    apply (word_setPlace log _ (.header other) hreal trivial _).trans
    rw [if_neg (by simp)]
    exact h.header other

/-- Where there is no gap there is no filler to store. -/
theorem Framed.skipFiller (h : log.Framed fillers records)
    (hgap : ¬ log.layout.endAfter fillers < log.layout.headerAt fillers) :
    log.Framed (fillers + 1) records := by
  refine ⟨fun other hother => ?_, h.header, h.blank⟩
  have hne : other ≠ fillers := fun heq => hgap (heq ▸ hother)
  rw [h.filler other hother]
  simp only [show other < fillers + 1 ↔ other < fillers by omega]

/-- Storing the next header commits a record. -/
theorem Framed.setHeader (h : log.Framed fillers records) :
    (log.setWord (log.layout.headerAt records) (Header.recordWord log.layout.bytes)).Framed
      fillers (records + 1) := by
  have hreal : (Layout.Place.header records).Real log.layout := trivial
  refine ⟨?_, ?_, fun position haligned hno =>
    blank_setPlace h hreal _ position haligned hno⟩
  · intro other hother
    apply (word_setPlace log _ (.filler other) hreal hother _).trans
    rw [if_neg (by simp)]
    exact h.filler other hother
  · intro other
    apply (word_setPlace log _ (.header other) hreal trivial _).trans
    by_cases hsame : other = records
    · subst hsame
      rw [if_pos rfl, if_pos (Nat.lt_succ_self _)]
      rfl
    · rw [if_neg (by simpa using hsame)]
      apply (h.header other).trans
      simp only [show other < records + 1 ↔ other < records by omega]
      rfl

/-- A word that stands there already. -/
theorem word_setWord_same {position : Nat} {value : Word} (hsame : log.word position = value)
    (other : Nat) : (log.setWord position value).word other = log.word other := by
  rw [word_setWord]
  split
  · rename_i hat
    rw [← hsame]
    simp only [word, hat]
  · rfl

/-! A later session stores fillers and headers where those of an earlier one stand. -/

theorem Framed.storeFiller (h : log.Framed fillers records) {count : Nat} (hcount : count ≤ fillers)
    (hgap : log.layout.endAfter count < log.layout.headerAt count) :
    (log.setWord (log.layout.endAfter count) (Header.paddingWord
      (log.layout.headerAt count - log.layout.endAfter count))).Framed
        (max fillers (count + 1)) records := by
  rcases Nat.eq_or_lt_of_le hcount with rfl | hbefore
  · rw [Nat.max_eq_right (Nat.le_succ _)]
    exact h.setFiller hgap
  · rw [Nat.max_eq_left hbefore]
    refine h.of_reads (word_setWord_same ?_) rfl
    rw [h.filler count hgap, if_pos hbefore]

theorem Framed.passFiller (h : log.Framed fillers records) {count : Nat} (hcount : count ≤ fillers)
    (hgap : ¬ log.layout.endAfter count < log.layout.headerAt count) :
    log.Framed (max fillers (count + 1)) records := by
  rcases Nat.eq_or_lt_of_le hcount with rfl | hbefore
  · rw [Nat.max_eq_right (Nat.le_succ _)]
    exact h.skipFiller hgap
  · rw [Nat.max_eq_left hbefore]
    exact h

theorem Framed.storeHeader (h : log.Framed fillers records) {count : Nat}
    (hcount : count ≤ records) :
    (log.setWord (log.layout.headerAt count) (Header.recordWord log.layout.bytes)).Framed
      fillers (max records (count + 1)) := by
  rcases Nat.eq_or_lt_of_le hcount with rfl | hbefore
  · rw [Nat.max_eq_right (Nat.le_succ _)]
    exact h.setHeader
  · rw [Nat.max_eq_left hbefore]
    refine h.of_reads (word_setWord_same ?_) rfl
    rw [h.header count, if_pos hbefore]

end Framed

/-! ### The stores of an append -/

theorem Sound.setWord {log : Log} (h : log.Sound) (position : Nat) (value : Word) :
    (log.setWord position value).Sound :=
  ⟨h.layout, h.pages, h.one_page, h.small, h.touched, h.written⟩

/-- Stores keep a log sound as long as the write position stays in the file. -/
theorem Sound.storeAll {log : Log} (h : log.Sound) {stores : List Store}
    (hstops : ∀ position, .writePosition position ∈ stores → position ≤ log.capacity) :
    (log.storeAll stores).Sound := by
  induction stores generalizing log with
  | nil => exact h
  | cons store rest ih =>
      have hrest := fun position hmember =>
        hstops position (List.mem_cons_of_mem store hmember)
      have hfirst : (log.store store).Sound := by
        cases store with
        | word position value => exact h.setWord position value
        | writePosition position =>
            exact ⟨h.layout, h.pages, h.one_page, h.small, h.touched,
              hstops position List.mem_cons_self⟩
        | appended records =>
            exact ⟨h.layout, h.pages, h.one_page, h.small, h.touched, h.written⟩
      exact ih hfirst (by rwa [capacity_store])

/-- Storing what stands there already changes no word. -/
theorem word_storeAll_same {log : Log} {stores : List Store}
    (hsame : ∀ position value, .word position value ∈ stores → log.word position = value)
    (other : Nat) : (log.storeAll stores).word other = log.word other := by
  induction stores generalizing log with
  | nil => rfl
  | cons store rest ih =>
      have hfirst : ∀ other, (log.store store).word other = log.word other := by
        intro other
        cases store with
        | word position value =>
            exact word_setWord_same (hsame position value List.mem_cons_self) other
        | writePosition position => rfl
        | appended records => rfl
      refine (ih fun position value hmember => ?_).trans (hfirst other)
      rw [hfirst]
      exact hsame position value (List.mem_cons_of_mem store hmember)

/-- Stores to other words leave a word as it is. -/
theorem word_storeAll_elsewhere {log : Log} {stores : List Store} {position : Nat}
    (helsewhere : ∀ other value, .word other value ∈ stores → other / 8 ≠ position / 8) :
    (log.storeAll stores).word position = log.word position := by
  induction stores generalizing log with
  | nil => rfl
  | cons store rest ih =>
      refine (ih fun other value hmember =>
        helsewhere other value (List.mem_cons_of_mem store hmember)).trans ?_
      cases store with
      | word other value =>
          have hother := helsewhere other value List.mem_cons_self
          exact (word_setWord log other position value).trans (if_neg (Ne.symm hother))
      | writePosition reached => rfl
      | appended records => rfl

theorem word_setBody (log : Log) {index word other otherWord : Nat}
    (hword : word < log.layout.words) (hother : otherWord < log.layout.words) (value : Word) :
    (log.setWord (log.layout.bodyAt index + word * 8) value).word
        (log.layout.bodyAt other + otherWord * 8) =
      if other = index ∧ otherWord = word then value
      else log.word (log.layout.bodyAt other + otherWord * 8) := by
  apply (word_setPlace log (.body index word) (.body other otherWord) hword hother value).trans
  simp only [Layout.Place.body.injEq]
  rfl

theorem fillStores_works (body : Nat) {words : Nat} {fill : List Edit}
    (hworks : ∀ edit ∈ fill, edit.Works words) : (fillStores body words fill).2 = .ok () := by
  induction fill with
  | nil => rfl
  | cons edit rest ih =>
      obtain ⟨⟨index, value⟩, htarget⟩ := hworks edit (by simp)
      have hrest := ih fun other hother => hworks other (by simp [hother])
      cases hsplit : fillStores body words rest with
      | mk stores outcome =>
          simp only [hsplit] at hrest
          simp only [fillStores, htarget, hsplit, hrest]

/-- A fill changes the words it writes, each to the last value it gives it, and nothing else. -/
theorem storeAll_fill (log : Log) {fillers records : Nat} (hsound : log.Sound)
    (hframe : log.Framed fillers records) (index : Nat) (fill : List Edit)
    (hworks : ∀ edit ∈ fill, edit.Works log.layout.words) :
    let after := log.storeAll
      (fillStores (log.layout.bodyAt index) log.layout.words fill).1
    after.Sound ∧ after.Framed fillers records ∧
      ∀ other word, word < log.layout.words →
        after.word (log.layout.bodyAt other + word * 8) =
          if other = index then
            (Edit.written log.layout.words fill word).getD
              (log.word (log.layout.bodyAt other + word * 8))
          else log.word (log.layout.bodyAt other + word * 8) := by
  induction fill generalizing log with
  | nil => exact ⟨hsound, hframe, fun other word _ => by simp [fillStores, storeAll, Edit.written]⟩
  | cons edit rest ih =>
      obtain ⟨⟨target, value⟩, htarget⟩ := hworks edit (by simp)
      have hlt := Edit.target_lt htarget
      have hrest := ih (log.setWord (log.layout.bodyAt index + target * 8) value)
        (hsound.setWord _ _) (hframe.setBody hlt value)
        (fun other hother => hworks other (by simp [hother]))
      cases hsplit : fillStores (log.layout.bodyAt index) log.layout.words rest with
      | mk stores outcome =>
          simp only [layout_setWord, hsplit] at hrest
          simp only [fillStores, htarget, hsplit]
          refine ⟨hrest.1, hrest.2.1, fun other word hword => ?_⟩
          apply (hrest.2.2 other word hword).trans
          rw [word_setBody log hlt hword]
          by_cases hsame : other = index
          · subst hsame
            simp only [if_true, true_and, Edit.written, Edit.writes, htarget]
            by_cases hat : word = target
            · subst hat
              cases Edit.written log.layout.words rest word <;> simp
            · rw [if_neg hat, if_neg (Ne.symm hat), Option.or_none]
          · simp only [hsame, false_and, if_false]

end Log

end GatedPipeline
