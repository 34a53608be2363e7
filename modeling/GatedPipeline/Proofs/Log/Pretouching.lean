import Mathlib.Algebra.GroupWithZero.Nat
import Mathlib.Data.List.Nodup
import Mathlib.Data.List.Perm.Subperm
import GatedPipeline.Proofs.Log.Footprint

/-!
Pretouching over the whole life of a log, also in the middle of an append. The pretoucher remembers
how far it has come and goes on from there, or from the page of the write position if the writer has
overtaken it. So no page is touched twice, and the pages it leaves out lie under entries that have
been committed; a record is so much smaller than a page that each of them holds the header of one.
-/

namespace GatedPipeline

/-- Every page in front of the end of an entry holds a header. -/
theorem Layout.header_in_page {layout : Layout} (h : layout.Valid) {count page : Nat}
    (hend : page + Log.pageBytes ≤ layout.endAfter count) : ∃ index < count,
      page ≤ layout.headerAt index ∧ layout.headerAt index < page + Log.pageBytes := by
  have hspan := layout.span_bounds
  have hbytes := layout.bytes_eq
  have hfew := h.few_stages
  simp only [maxStages, Log.pageBytes] at hfew hend ⊢
  cases count with
  | zero => simp only [Layout.endAfter] at hend; omega
  | succ last =>
      -- the first header that is not in front of the page
      obtain ⟨index, hindex⟩ : ∃ index, index = (page - 56 + (layout.span - 1)) / layout.span :=
        ⟨_, rfl⟩
      have hle : index * layout.span ≤ page - 56 + (layout.span - 1) :=
        hindex ▸ Nat.div_mul_le_self _ _
      have hlt : page - 56 + (layout.span - 1) < index * layout.span + layout.span := by
        have hdiv := Nat.lt_div_mul_add (a := page - 56 + (layout.span - 1))
          (show 0 < layout.span by omega)
        rwa [← hindex] at hdiv
      simp only [Layout.endAfter, Layout.bodyAt, Log.alignment] at hend
      refine ⟨index, ?_, ?_, ?_⟩
      · apply Nat.lt_of_not_le
        intro hlate
        have hmul := Nat.mul_le_mul_right layout.span hlate
        rw [Nat.add_mul, Nat.one_mul] at hmul
        omega
      · simp only [Layout.headerAt]
        omega
      · simp only [Layout.headerAt]
        omega

namespace Log

/-! ### One pretouch -/

/-- What touching does to a page: it adds zero to the first word. -/
def touchAll (log : Log) (pages : List Nat) : Log :=
  pages.foldl (fun log page => log.setWord page (log.word page + 0)) log

theorem word_touchAll (log : Log) (pages : List Nat) (position : Nat) :
    (log.touchAll pages).word position = log.word position := by
  induction pages generalizing log with
  | nil => rfl
  | cons page rest ih =>
      refine (ih _).trans ?_
      exact word_setWord_same (by simp) position

theorem pagesFrom_nodup (first target : Nat) : (pagesFrom first target).Nodup := by
  apply List.Nodup.map _ List.nodup_range
  intro one other hsame
  simp only [pageBytes] at hsame
  omega

theorem pagesFrom_nil {first target : Nat} (h : target ≤ first) : pagesFrom first target = [] := by
  have hnone : (target - first + (pageBytes - 1)) / pageBytes = 0 := by
    simp only [pageBytes]
    omega
  rw [pagesFrom, hnone]
  rfl

theorem mem_pagesFrom {first target page : Nat} (hfirst : first % 4096 = 0) :
    page ∈ pagesFrom first target ↔ page % 4096 = 0 ∧ first ≤ page ∧ page < target := by
  simp only [pagesFrom, List.mem_map, List.mem_range, pageBytes]
  constructor
  · rintro ⟨k, hk, rfl⟩
    omega
  · rintro ⟨haligned, hfrom, hto⟩
    exact ⟨(page - first) / 4096, by omega, by omega⟩

theorem pagesFrom_end {first target page : Nat} (hfirst : first % 4096 = 0)
    (haligned : page % 4096 = 0) (hfrom : first ≤ page) :
    page ∈ pagesFrom first target ↔
      page < first + (pagesFrom first target).length * pageBytes := by
  rw [mem_pagesFrom hfirst]
  simp only [pagesFrom, List.length_map, List.length_range, pageBytes]
  omega

theorem le_pagesFrom_end (first target : Nat) :
    target ≤ first + (pagesFrom first target).length * pageBytes := by
  simp only [pagesFrom, List.length_map, List.length_range, pageBytes]
  omega

/-- The position of the pretoucher is no word of the log. -/
theorem word_pretouched (log : Log) (reached position : Nat) :
    { log with pretouched := reached }.word position = log.word position := rfl

/-- Nor does it say how far a pretouch goes. -/
theorem pretouchTo_pretouched (log : Log) (reached : Nat) :
    { log with pretouched := reached }.pretouchTo = log.pretouchTo := rfl

theorem word_afterPretouch (log : Log) (position : Nat) :
    log.afterPretouch.word position = log.word position := word_pretouched log _ position

/-- A pretouch comes as far as it is to go. -/
theorem afterPretouch_ahead (log : Log) :
    log.afterPretouch.pretouchTo ≤ log.afterPretouch.pretouched := by
  rw [afterPretouch, pretouchTo_pretouched]
  exact le_pagesFrom_end _ _

/-! ### Whole runs -/

/-- What a run keeps, with the pages that it has touched and the stores that its appends have made:
every page behind the pretoucher is touched or holds a header, and all entries in front of the write
position have theirs. -/
structure Swept (log : Log) (layout : Layout) (touched : List Nat) (stored : List Store) :
    Prop where
  nodup : touched.Nodup
  behind : ∀ page ∈ touched, page % 4096 = 0 ∧ page < log.pretouched
  covered : ∀ page, page % 4096 = 0 → page < log.pretouched → page ∈ touched ∨
    ∃ index, page ≤ layout.headerAt index ∧ layout.headerAt index < page + pageBytes ∧
      log.word (layout.headerAt index) ≠ 0
  headers : ∀ index, log.word (layout.headerAt index) ≠ 0 → .header layout index ∈ stored
  position : ∃ count, log.writePosition = layout.endAfter count ∧
    ∀ index < count, log.word (layout.headerAt index) ≠ 0

section Swept

variable {log : Log} {layout : Layout} {touched : List Nat} {stored : List Store}
  (h : log.Swept layout touched stored)

include h

/-- Nothing changes with other words than headers. -/
theorem Swept.of_headers {other : Log}
    (hheaders : ∀ index, other.word (layout.headerAt index) = log.word (layout.headerAt index))
    (hposition : other.writePosition = log.writePosition)
    (hpretouched : other.pretouched = log.pretouched) : other.Swept layout touched stored := by
  refine ⟨h.nodup, ?_, ?_, ?_, ?_⟩
  · rw [hpretouched]
    exact h.behind
  · simp only [hheaders, hpretouched]
    exact h.covered
  · simp only [hheaders]
    exact h.headers
  · simp only [hheaders, hposition]
    exact h.position

theorem Swept.storeAll {fillers records : Nat} {stores : List Store} (hlayout : log.layout = layout)
    (hsound : log.Sound) (hframed : log.Framed fillers records)
    (htogether : Store.Together layout records stores) :
    (log.storeAll stores).Swept layout touched (stored ++ stores) := by
  obtain rfl := hlayout
  obtain ⟨count, hcount, hof, hmoves⟩ := htogether
  have hmarked := recordWord_ne_zero hsound.layout
  have hheader := header_storeAll hof
  have hstays : ∀ index, log.word (log.layout.headerAt index) ≠ 0 →
      (log.storeAll stores).word (log.layout.headerAt index) ≠ 0 := by
    intro index hstands
    rw [hheader]
    split_ifs
    · exact hmarked
    · exact hstands
  refine ⟨h.nodup, ?_, ?_, ?_, ?_⟩
  · rw [pretouched_storeAll]
    exact h.behind
  · rw [pretouched_storeAll]
    intro page haligned hpage
    refine (h.covered page haligned hpage).imp_right ?_
    rintro ⟨index, hfrom, hto, hstands⟩
    exact ⟨index, hfrom, hto, hstays index hstands⟩
  · intro index hstands
    rw [hheader] at hstands
    split_ifs at hstands with hmade
    · exact List.mem_append_right _ hmade
    · exact List.mem_append_left _ (h.headers index hstands)
  · rw [position_storeAll hof]
    split_ifs with hmoved
    · refine ⟨count + 1, rfl, fun index hindex => ?_⟩
      have hstood : index < records → log.word (log.layout.headerAt index) ≠ 0 := by
        intro hbefore
        rw [hframed.header index, if_pos hbefore]
        exact hmarked
      rcases Nat.lt_succ_iff_lt_or_eq.mp hindex with hbefore | rfl
      · exact hstays index (hstood (by omega))
      · rcases hmoves _ hmoved with hbefore | hmade
        · exact hstays index (hstood hbefore)
        · rw [hheader, if_pos hmade]
          exact hmarked
    · obtain ⟨others, hposition, hstand⟩ := h.position
      exact ⟨others, hposition, fun index hindex => hstays index (hstand index hindex)⟩

/-- The pages that a pretouch leaves out lie under entries. -/
theorem Swept.pretouch (hsound : log.Sound) (hvalid : layout.Valid) {reached : Nat}
    (hreached : reached = log.pretouchFrom +
      (pagesFrom log.pretouchFrom log.pretouchTo).length * pageBytes) :
    { log with pretouched := reached }.Swept layout
      (touched ++ pagesFrom log.pretouchFrom log.pretouchTo) stored := by
  obtain ⟨hfrom, -⟩ := pretouchFrom_bounds hsound
  obtain ⟨count, hposition, hstand⟩ := h.position
  have hbehind : log.pretouched ≤ log.pretouchFrom := Nat.le_max_left _ _
  have hpages := fun page => @pagesFrom_end log.pretouchFrom log.pretouchTo page hfrom
  have hmember := fun page => @mem_pagesFrom log.pretouchFrom log.pretouchTo page hfrom
  refine ⟨?_, ?_, ?_, h.headers, h.position⟩
  · refine List.Nodup.append h.nodup (pagesFrom_nodup _ _) fun page hold hnew => ?_
    have hlt := (h.behind page hold).2
    have hge := ((hmember page).mp hnew).2.1
    omega
  · simp only [hreached]
    intro page hpage
    rcases List.mem_append.mp hpage with hold | hnew
    · have hlt := h.behind page hold
      exact ⟨hlt.1, by omega⟩
    · obtain ⟨haligned, hge, -⟩ := (hmember page).mp hnew
      exact ⟨haligned, (hpages page haligned hge).mp hnew⟩
  · intro page haligned (hlt : page < reached)
    rw [hreached] at hlt
    by_cases hold : page < log.pretouched
    · exact (h.covered page haligned hold).imp_left (List.mem_append_left _)
    by_cases hskipped : page < log.pretouchFrom
    · have hunder : page + pageBytes ≤ layout.endAfter count := by
        rw [← hposition]
        simp only [pretouchFrom, pageBytes] at hskipped ⊢
        omega
      obtain ⟨index, hindex, hin⟩ := Layout.header_in_page hvalid hunder
      exact .inr ⟨index, hin.1, hin.2, hstand index hindex⟩
    · exact .inl (List.mem_append_right _
        ((hpages page haligned (Nat.le_of_not_lt hskipped)).mpr hlt))

end Swept

namespace Course

section Kept

variable {course : Course} {layout : Layout} {capacity fillers records : Nat}
  (h : course.Kept layout capacity fillers records)

include h

theorem Kept.touches_pretouch : course.touches .pretouch =
    some (pagesFrom course.usage.log.pretouchFrom course.usage.log.pretouchTo) := by
  rw [touches, pretouch_eq h.usage.sound]
  rfl

theorem Kept.swept_step {touched : List Nat} {stored : List Store}
    (hswept : course.usage.log.Swept layout touched stored) (step : Step) :
    (course.step step).usage.log.Swept layout (touched ++ (course.touches step).toList.flatten)
      (stored ++ course.stores step) := by
  have hleaves := h.leaves step
  have hvalid : layout.Valid := h.usage.layout_eq ▸ h.usage.sound.layout
  generalize (course.step step).usage.log = after at hleaves
  cases hleaves with
  | stores step htouches =>
      rw [htouches, Option.toList_none, List.flatten_nil, List.append_nil]
      exact hswept.storeAll h.usage.layout_eq h.usage.sound h.usage.framed (h.stores_together step)
  | edits step index word value hword hstores htouches =>
      rw [htouches, hstores, Option.toList_none, List.flatten_nil, List.append_nil, List.append_nil]
      obtain rfl := h.usage.layout_eq
      have hreal : (Layout.Place.body index word).Real course.usage.log.layout := hword
      exact hswept.of_headers
        (fun other => (header_setPlace _ hreal (by simp) value other).1) rfl rfl
  | hands step taken hstores htouches =>
      rw [htouches, hstores, Option.toList_none, List.flatten_nil, List.append_nil, List.append_nil]
      exact hswept.of_headers (fun _ => rfl) rfl rfl
  | pretouches =>
      have hstores : course.stores .pretouch = [] := ite_self _
      rw [h.touches_pretouch, hstores, Option.toList_some, List.flatten_singleton, List.append_nil]
      exact hswept.pretouch h.usage.sound hvalid rfl

theorem Kept.swept_run {touched : List Nat} {stored : List Store}
    (hswept : course.usage.log.Swept layout touched stored) (steps : List Step) :
    (course.run steps).usage.log.Swept layout (touched ++ (course.pretouches steps).flatten)
      (stored ++ course.stored steps) := by
  unfold Course.run
  induction steps generalizing course fillers records touched stored with
  | nil => simpa [pretouches, Course.stored] using hswept
  | cons first rest ih =>
      obtain ⟨fillers', records', hfirst⟩ := h.step first
      have hrest := ih hfirst (h.swept_step hswept first)
      simpa [pretouches, Course.stored] using hrest

/-- The pretoucher stays ahead while the write position rests. -/
theorem Kept.ahead_step {step : Step} (hahead : course.usage.log.pretouchTo ≤
      course.usage.log.pretouched)
    (hrests : ∀ position, .writePosition position ∉ course.stores step) :
    (course.step step).usage.log.pretouchTo ≤ (course.step step).usage.log.pretouched := by
  have hleaves := h.leaves step
  generalize (course.step step).usage.log = after at hleaves
  cases hleaves with
  | stores step htouches =>
      obtain ⟨count, -, hof, -⟩ := h.stores_together step
      obtain rfl := h.usage.layout_eq
      rw [pretouchTo, position_storeAll hof, if_neg (hrests _), capacity_storeAll,
        pretouched_storeAll]
      exact hahead
  | edits step index word value hword hstores htouches => exact hahead
  | hands step taken hstores htouches => exact hahead
  | pretouches => exact afterPretouch_ahead _

theorem Kept.ahead_run (hahead : course.usage.log.pretouchTo ≤ course.usage.log.pretouched)
    {steps : List Step} (hrests : ∀ position, .writePosition position ∉ course.stored steps) :
    (course.run steps).usage.log.pretouchTo ≤ (course.run steps).usage.log.pretouched := by
  unfold Course.run
  induction steps generalizing course fillers records with
  | nil => exact hahead
  | cons first rest ih =>
      obtain ⟨fillers', records', hfirst⟩ := h.step first
      have hnone := fun position => not_or.mp (List.mem_append.not.mp (hrests position))
      exact ih hfirst (h.ahead_step hahead fun position => (hnone position).1)
        fun position => (hnone position).2

theorem Kept.log_pretouch :
    (course.step .pretouch).usage.log = course.usage.log.afterPretouch := by
  have hleaves := h.leaves .pretouch
  have htouches := h.touches_pretouch
  generalize (course.step .pretouch).usage.log = after at hleaves ⊢
  cases hleaves with
  | pretouches => rfl
  | stores step hnone | edits step index word value hword hstores hnone
  | hands step taken hstores hnone =>
      rw [htouches] at hnone
      cases hnone

theorem Kept.ahead_pretouch : (course.step .pretouch).usage.log.pretouchTo ≤
    (course.step .pretouch).usage.log.pretouched := by
  rw [h.log_pretouch]
  exact afterPretouch_ahead _

/-- Where the pretoucher is ahead, every page in front of it is touched or has been written. -/
theorem Kept.covers {touched : List Nat} {stored : List Store}
    (hswept : course.usage.log.Swept layout touched stored)
    (hahead : course.usage.log.pretouchTo ≤ course.usage.log.pretouched) {page : Nat}
    (haligned : page % pageBytes = 0)
    (hpage : page < min (course.usage.log.writePosition + pretouchAhead) capacity) :
    page ∈ touched ∨ ∃ position value, page ≤ position ∧ position < page + pageBytes ∧
      .word position value ∈ stored ∧ course.usage.log.word position = value := by
  have hto : page < course.usage.log.pretouchTo := by
    rwa [pretouchTo, h.usage.capacity_eq]
  refine (hswept.covered page haligned (Nat.lt_of_lt_of_le hto hahead)).imp_right ?_
  rintro ⟨index, hfrom, hbelow, hstands⟩
  have hheader := h.usage.framed.header index
  rw [h.usage.layout_eq] at hheader
  split_ifs at hheader
  · exact ⟨_, _, hfrom, hbelow, hswept.headers index hstands, hheader⟩
  · exact absurd hheader hstands

end Kept

/-- What pretouching comes to over a run. A pretouch returns, and touching its pages changes no
word. No page is touched twice, neither by one pretouch nor by two, so that the numbers returned add
up to no more than the pages of the file. By `covers` every page ahead of the writer has been
touched after a pretouch unless an append has written there, and by `idle` another pretouch has
nothing to touch as long as no append moves the write position. -/
structure Pretouching (course : Course) (steps : List Step) : Prop where
  harmless : ∃ pages, (course.run steps).touches .pretouch = some pages ∧
    ∀ position, ((course.run steps).usage.log.touchAll pages).word position =
        (course.run steps).usage.log.word position ∧
      ((course.run steps).step .pretouch).usage.log.word position =
        (course.run steps).usage.log.word position
  once : (course.pretouches steps).flatten.Nodup
  inside : ∀ page ∈ (course.pretouches steps).flatten,
    page % pageBytes = 0 ∧ page < course.usage.log.capacity
  few : ((course.pretouches steps).map List.length).sum ≤ course.usage.log.capacity / pageBytes
  covers : ∀ page, page % pageBytes = 0 →
    page < min ((course.run (steps ++ [.pretouch])).usage.log.writePosition + pretouchAhead)
      course.usage.log.capacity →
    page ∈ (course.pretouches (steps ++ [.pretouch])).flatten ∨
      ∃ position value, page ≤ position ∧ position < page + pageBytes ∧
        .word position value ∈ course.stored (steps ++ [.pretouch]) ∧
        (course.run (steps ++ [.pretouch])).usage.log.word position = value
  idle : ∀ between, (∀ position,
      .writePosition position ∉ (course.run (steps ++ [.pretouch])).stored between) →
    (course.run (steps ++ .pretouch :: between)).touches .pretouch = some []

theorem run_append (course : Course) (first second : List Step) :
    course.run (first ++ second) = (course.run first).run second :=
  List.foldl_append

/-- Pages of a file that differ from one another are no more than it has. -/
theorem pages_few {pages : List Nat} {capacity : Nat} (hnodup : pages.Nodup)
    (hpages : capacity % pageBytes = 0)
    (hinside : ∀ page ∈ pages, page % pageBytes = 0 ∧ page < capacity) :
    pages.length ≤ capacity / pageBytes := by
  have hsubset : pages ⊆ (List.range (capacity / pageBytes)).map (· * pageBytes) := by
    intro page hpage
    obtain ⟨haligned, hlt⟩ := hinside page hpage
    simp only [List.mem_map, List.mem_range, pageBytes] at *
    exact ⟨page / 4096, by omega, by omega⟩
  have hlength := (hnodup.subperm hsubset).length_le
  rwa [List.length_map, List.length_range] at hlength

section Begin

variable {storage after : Storage} {directory name : String} {stages bytes : Nat} {layout : Layout}
  {log : Log} (hlayout : Layout.ofStages stages = .ok layout)
  (hcreate : Log.create storage directory name layout bytes = (after, .ok log))

include hlayout hcreate

theorem begin_swept : log.Swept layout [] [] := by
  obtain ⟨hholds, rfl, -⟩ := create_holds (Layout.ofStages_ok hlayout).1 hcreate
  have hblank : ∀ index, log.word (log.layout.headerAt index) = 0 := hholds.framed.header
  refine ⟨List.nodup_nil, by simp, ?_, ?_, 0, hholds.position, by simp⟩
  · intro page _ hpage
    rw [create_pretouched hcreate] at hpage
    exact absurd hpage (Nat.not_lt_zero page)
  · exact fun index hstands => absurd (hblank index) hstands

/-- Over every run from a new log, of appends of any number of appenders, as a whole or store by
store, of reads, edits and pretouches: a pretouch changes no word, no page is touched twice, after a
pretouch every page that starts below the write position and the distance ahead of it has been
touched or written by an append, and a pretouch that follows another with no append in between
touches nothing. -/
theorem run_pretouches (steps : List Step) : (begin log).Pretouching steps := by
  have hbegin := begin_kept hlayout hcreate
  have hswept : ∀ steps, ((begin log).run steps).usage.log.Swept layout
      ((begin log).pretouches steps).flatten ((begin log).stored steps) :=
    fun steps => hbegin.swept_run (begin_swept hlayout hcreate) steps
  obtain ⟨fillers, records, hkept⟩ := hbegin.run steps
  obtain ⟨fillers', records', hafter⟩ := hkept.step .pretouch
  have hlast : (begin log).run (steps ++ [.pretouch]) =
      ((begin log).run steps).step .pretouch := run_append _ _ _
  have hpages := hkept.usage.capacity_eq ▸ hkept.usage.sound.pages
  have hinside : ∀ page ∈ ((begin log).pretouches steps).flatten,
      page % pageBytes = 0 ∧ page < log.capacity := by
    intro page hpage
    have hbehind := (hswept steps).behind page hpage
    have hreached := hkept.usage.sound.touched.2
    rw [hkept.usage.capacity_eq] at hreached
    exact ⟨hbehind.1, by omega⟩
  have hfew := pages_few (hswept steps).nodup hpages hinside
  rw [List.length_flatten] at hfew
  refine ⟨⟨_, hkept.touches_pretouch, fun position => ⟨word_touchAll _ _ _, ?_⟩⟩,
    (hswept steps).nodup, hinside, hfew, fun page haligned hpage => ?_, fun between hrests => ?_⟩
  · rw [hkept.log_pretouch]
    exact word_afterPretouch _ position
  · have hlater := hswept (steps ++ [.pretouch])
    rw [hlast] at hlater hpage ⊢
    exact hafter.covers hlater hkept.ahead_pretouch haligned hpage
  · rw [hlast] at hrests
    obtain ⟨fillers'', records'', hfinal⟩ := hafter.run between
    have hstill := hafter.ahead_run hkept.ahead_pretouch hrests
    have hrun : (begin log).run (steps ++ .pretouch :: between) =
        (((begin log).run steps).step .pretouch).run between := run_append _ _ _
    rw [hrun, hfinal.touches_pretouch]
    exact congrArg some (pagesFrom_nil (Nat.le_trans hstill (Nat.le_max_left _ _)))

end Begin

/-- A log of two pages: both are touched before anything is written, and in the middle of an append
there is nothing left to touch. -/
theorem run_pretouches_two_pages :
    let course := begin ⟨"main", "/main.log", 8192, ⟨1⟩, .zeros, 0, 0, 0, false⟩
    let steps : List Step := [.pretouch, .call .take, .plan [.remaining 1, .stamp 0 100], .store,
      .store, .store, .pretouch, .store, .store]
    course.Pretouching steps ∧ course.pretouches steps = [[0, 4096], []] := by
  intro course steps
  exact ⟨@run_pretouches .empty _ "/" "main" 1 8192 ⟨1⟩
    ⟨"main", "/main.log", 8192, ⟨1⟩, .zeros, 0, 0, 0, false⟩ rfl (Prod.ext rfl rfl) steps,
    by decide⟩

end Course

end Log

end GatedPipeline
