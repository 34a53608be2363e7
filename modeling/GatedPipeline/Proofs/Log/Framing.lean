import GatedPipeline.Proofs.Log.Sessions

/-!
The bytes of a log after any history of its use, place by place, and what they are to its readers.
-/

namespace GatedPipeline

namespace Log

/-- The words of a log whose longest session committed `most` records, and what is read of them.
`layout.endAfter index` is where the entry before record `index` ends, and by `stride` the program
finds the same distance between two bodies as `layout.span`. Headers, the fillers in front of them
and all other words outside the bodies are given exactly. By `reads` each read of a cursor loads at
most two words and none of a body. -/
structure Framing (log : Log) (tailers : List Tailer) (layout : Layout) (most : Nat) : Prop where
  layout_eq : log.layout = layout
  stride : layout.stride = .ok layout.span
  header : ∀ index, log.word (56 + index * layout.span) =
    if index < most then Header.recordWord layout.bytes else 0
  gap : ∀ index position, position % 8 = 0 → layout.endAfter index ≤ position →
    position < 56 + index * layout.span →
      log.word position =
        if index < most ∧ position = layout.endAfter index then
          Header.paddingWord (56 + index * layout.span - layout.endAfter index)
        else 0
  blank : ∀ position, position % 8 = 0 → (∀ index, position ≠ 56 + index * layout.span) →
    (∀ index, position ≠ layout.endAfter index) →
    (∀ index word, word < layout.words → position ≠ 64 + index * layout.span + word * 8) →
      log.word position = 0
  aligned : ∀ index, (64 + index * layout.span) % 64 = 0
  drained : ∀ fuel, most < fuel → ∃ final, Tailer.drain log fuel .start =
    (final, (List.range most).map fun index =>
      ⟨index, ⟨64 + index * layout.span, layout.words⟩⟩, .ok ())
  reads : ∀ tailer ∈ Tailer.start :: tailers, ∀ reads, ∀ stop ∈ tailer.stops log reads,
    Tailer.read log stop = Tailer.advance log 2 stop ∧
      ∀ fuel, (Tailer.loads log fuel stop).length ≤ 2 ∧
        ∀ position ∈ Tailer.loads log fuel stop, ∀ index word, word < layout.words →
          position ≠ 64 + index * layout.span + word * 8

/-- Where the log keeps the frame of so many records, its words and its readers are as they should
be. -/
theorem Kept.framing {log : Log} {layout : Layout} {capacity most : Nat}
    (h : log.Kept layout capacity most) {tailers : List Tailer}
    (htailers : ∀ tailer ∈ tailers, ∃ index ≤ most, tailer.Stands layout index) :
    Framing log tailers layout most := by
  obtain rfl := h.layout_eq
  constructor
  case layout_eq => rfl
  case stride => exact stride_eq h.sound.layout
  case header => exact h.framed.header
  case gap =>
    intro index position haligned hfrom hto
    have hheader : position < log.layout.headerAt index := hto
    by_cases hstart : position = log.layout.endAfter index
    · subst hstart
      rw [h.framed.filler index hheader]
      simp only [and_true]
      rfl
    · rw [if_neg fun hat => hstart hat.2]
      -- no other place of the record lies in front of its header
      apply h.framed.blank position haligned
      rintro place hreal rfl
      have hbounds := log.layout.entry_bounds index
      have hadd := log.layout.headerAt_add index
      have hwithin := place.position_within log.layout hreal
      have hrecord : place.record = index :=
        log.layout.entry_unique hwithin.1 (by omega) hfrom (by omega)
      subst hrecord
      cases place with
      | filler record => exact hstart rfl
      | header record => exact Nat.lt_irrefl _ hheader
      | body record word =>
          simp only [Layout.Place.record, Layout.Place.position, headerBytes] at *
          omega
  case blank =>
    intro position haligned hheader hend hbody
    apply h.framed.blank position haligned
    rintro place hreal rfl
    cases place with
    | filler record => exact hend record rfl
    | header record => exact hheader record rfl
    | body record word => exact hbody record word hreal rfl
  case aligned => exact log.layout.bodyAt_aligned
  case drained =>
    intro fuel hfuel
    obtain ⟨final, -, hdrain⟩ := Tailer.drain_stands h.sound h.framed h.fits (Nat.zero_le _)
      (Tailer.start_stands log.layout) (by omega : most - 0 < fuel)
    rw [Nat.sub_zero, ← List.range_eq_range'] at hdrain
    exact ⟨final, hdrain⟩
  case reads =>
    intro tailer htailer reads stop hstop
    obtain ⟨index, hindex, hstands⟩ : ∃ index ≤ most, tailer.Stands log.layout index := by
      rcases List.mem_cons.mp htailer with rfl | hold
      · exact ⟨0, Nat.zero_le _, Tailer.start_stands _⟩
      · exact htailers tailer hold
    obtain ⟨other, hother, hat⟩ :=
      Tailer.stops_stand h.sound h.framed h.fits reads hindex hstands stop hstop
    refine ⟨?_, fun fuel => ?_⟩
    · exact Tailer.read_two_loads h.sound h.framed h.fits hother hat
    · obtain ⟨hlength, hloads⟩ := Tailer.loads_stands h.sound h.framed h.fits fuel hother hat
      refine ⟨hlength, fun position hposition index word hword hbody => ?_⟩
      obtain ⟨-, place, hreal, hplace, hloaded⟩ := hloads position hposition
      have hsame : place = .body index word :=
        Layout.Place.position_injective log.layout place _ hreal hword (hloaded.trans hbody)
      subst hsame
      rcases hplace with hplace | hplace <;> cases hplace

/-- After any history the frame is that of the longest session, and every reader finds the records
of that session. -/
theorem Sessions.run_framing {storage after : Storage} {directory name : String}
    {stages bytes : Nat} {layout : Layout} {log : Log}
    (hlayout : Layout.ofStages stages = .ok layout)
    (hcreate : Log.create storage directory name layout bytes = (after, .ok log))
    (calls : List Call) :
    let sessions := (Sessions.begin log).run calls
    Framing sessions.usage.log sessions.usage.tailers layout sessions.most := by
  have hkept := (Sessions.begin_kept hlayout hcreate).run calls
  exact hkept.usage.log.framing hkept.usage.tailers

/-- Two records and a broken fill in a first session, one record over the first of them in a
second: both headers and the filler between them stand, and nothing behind them. -/
theorem Sessions.run_framing_second_session :
    let sessions := (Sessions.begin ⟨"main", "/main.log", 4096, ⟨1⟩, .zeros, 0, 0, 0, false⟩).run
      [.take, .use (.append [5, 0x8000000000000018]), .use (.appendWith [.stamp 0 7]),
        .use (.appendWith [.stamp 1 0x8000000000000018, .stamp 2 1]), .release, .take, .take,
        .use .tail, .use (.append [9]), .use (.next 0), .use (.edit 1 (.stamp 1 3)),
        .use .pretouch]
    sessions.counts = [1, 2] ∧ sessions.usage.log.word 56 = 0x8000000000000018 ∧
      sessions.usage.log.word 88 = 0x4000000000000020 ∧
      sessions.usage.log.word 120 = 0x8000000000000018 ∧ sessions.usage.log.word 152 = 0 ∧
      sessions.usage.log.word 184 = 0 ∧
      (Tailer.drain sessions.usage.log 3 .start).2.1 = [⟨0, ⟨64, 3⟩⟩, ⟨1, ⟨128, 3⟩⟩] := by
  intro sessions
  have hcounts : sessions.counts = [1, 2] := by decide
  have hmost : sessions.most = 2 := by decide
  have h : Framing sessions.usage.log sessions.usage.tailers ⟨1⟩ sessions.most :=
    @Sessions.run_framing .empty _ "/" "main" 1 100 ⟨1⟩ _ rfl (Prod.ext rfl rfl) _
  rw [hmost] at h
  obtain ⟨final, hdrain⟩ := h.drained 3 (by decide)
  refine ⟨hcounts, h.header 0, ?_, h.header 1, ?_, h.header 2, congrArg (·.2.1) hdrain⟩
  · exact h.gap 1 88 rfl (by decide) (by decide)
  · exact h.gap 2 152 rfl (by decide) (by decide)

end Log

end GatedPipeline
