import Mathlib.Data.List.TakeWhile
import GatedPipeline.Proofs.Log.Failing
import GatedPipeline.Proofs.Log.Lifetime

/-!
The words of a record are those last written to it, whoever wrote them: an append, a fill that broke
before it could commit, or a reader through a view. The edits of all calls are listed, each with the
record that it is made to, so what was last written to a word is found in the list, without the log.

An append of given words writes those and no others. Behind them the slot keeps what a broken fill
has left there, and a record is filled up with zeros only where nothing was left.
-/

namespace GatedPipeline.Log

def recordOf (layout : Layout) (view : View) : Nat := (view.body - alignment) / layout.span

theorem recordOf_viewAt (layout : Layout) (index : Nat) :
    recordOf layout (layout.viewAt index) = index := by
  have hspan := layout.span_bounds.1
  simp only [recordOf, Layout.viewAt, Layout.bodyAt, Nat.add_sub_cancel_left]
  exact Nat.mul_div_cancel index (by omega)

/-- The edits that an append stores: its fill up to the edit that breaks, if the log has a slot. -/
def Usage.filled (usage : Usage) (fill : List Edit) : List (Nat × Edit) :=
  match usage.log.slot usage.appender with
  | .error _ => []
  | .ok _ =>
      (fill.takeWhile (·.Works usage.log.layout.words)).map fun edit => (usage.appender.next, edit)

/-- What an act writes to records, in order. -/
def Usage.writes (usage : Usage) : Act → List (Nat × Edit)
  | .append given =>
      if usage.log.layout.words < given.length then [] else usage.filled (editsOf given)
  | .appendWith fill => usage.filled fill
  | .edit view change =>
      match usage.views[view]? with
      | none => []
      | some view => [(recordOf usage.log.layout view, change)]
  | .tail | .next _ | .seek .. | .look _ | .count | .pretouch => []

namespace Sessions

def writes (sessions : Sessions) : Call → List (Nat × Edit)
  | .use act =>
      if act.appends ∧ ¬ sessions.usage.log.appenderTaken then [] else sessions.usage.writes act
  | .take | .release => []

def history (sessions : Sessions) : List Call → List (Nat × Edit)
  | [] => []
  | first :: rest => sessions.writes first ++ (sessions.call first).history rest

end Sessions

def onRecord (index : Nat) (writes : List (Nat × Edit)) : List Edit :=
  (writes.filter (·.1 = index)).map (·.2)

theorem onRecord_append (index : Nat) (first second : List (Nat × Edit)) :
    onRecord index (first ++ second) = onRecord index first ++ onRecord index second := by
  simp [onRecord]

theorem onRecord_map (index record : Nat) (fill : List Edit) :
    onRecord index (fill.map fun edit => (record, edit)) = if record = index then fill else [] := by
  by_cases hsame : record = index <;> simp [onRecord, List.filter_map, Function.comp_def, hsame]

/-! ### The words that an append leaves -/

/-- Behind the edit that breaks a fill stores nothing. -/
theorem fillStores_takeWhile (body words : Nat) (fill : List Edit) :
    (fillStores body words fill).1 =
      (fillStores body words (fill.takeWhile (·.Works words))).1 := by
  induction fill with
  | nil => rfl
  | cons edit rest ih =>
      cases htarget : edit.target words with
      | error fault =>
          have hnot : ¬ edit.Works words := by
            rintro ⟨target, hok⟩
            rw [htarget] at hok
            cases hok
          simp [List.takeWhile, hnot, fillStores, htarget]
      | ok target =>
          have hworks : edit.Works words := ⟨target, htarget⟩
          simp only [List.takeWhile, hworks, decide_true, fillStores, htarget, ih]

/-- Committing a record stores no word of a body. -/
theorem word_commit (log : Log) (count : Nat) {index word : Nat} (hword : word < log.layout.words) :
    (log.storeAll (log.layout.commitStores count)).word (log.layout.bodyAt index + word * 8) =
      log.word (log.layout.bodyAt index + word * 8) := by
  have hreal : (Layout.Place.body index word).Real log.layout := hword
  refine word_storeAll_apart hreal fun position value hstore => ?_
  obtain heq | ⟨heq, hgap⟩ | heq | heq := Layout.mem_commitStores hstore <;> cases heq
  · exact ⟨.header count, trivial, by simp, rfl⟩
  · exact ⟨.filler count, hgap, by simp, rfl⟩

section Kept

variable {log : Log} {layout : Layout} {capacity most count : Nat}
  (h : log.Kept layout capacity most) (hcount : count ≤ most)

include h hcount

theorem Kept.appendWith_written (fill : List Edit) {index word : Nat}
    (hword : word < layout.words) :
    (log.appendWith (layout.appenderAt count) fill).1.word (layout.bodyAt index + word * 8) =
      if index = count ∧ count < log.room then
        (Edit.written layout.words (fill.takeWhile (·.Works layout.words)) word).getD
          (log.word (layout.bodyAt index + word * 8))
      else log.word (layout.bodyAt index + word * 8) := by
  by_cases hsame : index = count
  · subst hsame
    obtain rfl := h.layout_eq
    have hplan := plan_eq h.sound (Nat.le_trans hcount h.fits) fill
    have hfill := (storeAll_fill log h.sound h.framed index
      (fill.takeWhile (·.Works log.layout.words)) fun edit hedit => by
        simpa using List.mem_takeWhile_imp hedit).2.2 index word hword
    rw [← fillStores_takeWhile, if_pos rfl] at hfill
    rw [appendWith_log, hplan]
    by_cases hroom : index < log.room
    · simp only [hroom, if_true, and_self]
      rw [← hfill]
      rcases fillStores (log.layout.bodyAt index) log.layout.words fill with ⟨stores, fault | ⟨⟩⟩
      · rfl
      · have hcommit := @word_commit (log.storeAll stores) index index word
          (by rwa [layout_storeAll])
        rw [layout_storeAll] at hcommit
        rw [storeAll_append]
        exact hcommit
    · simp only [hroom, if_false, and_false]
      rfl
  · rw [if_neg fun hat => hsame hat.1]
    exact h.appendWith_word hcount fill hword hsame

end Kept

/-! ### One call -/

namespace Usage

section Kept

variable {usage : Usage} {layout : Layout} {capacity most count : Nat}
  (h : usage.Kept layout capacity most) (hcount : count ≤ most)
  (happender : usage.appender = layout.appenderAt count)

include h hcount happender

theorem Kept.filled_eq (fill : List Edit) : usage.filled fill =
    if count < usage.log.room then
      (fill.takeWhile (·.Works layout.words)).map fun edit => (count, edit)
    else [] := by
  obtain rfl := h.log.layout_eq
  have hslot := slot_eq h.log.sound (Nat.le_trans hcount h.log.fits)
  unfold filled
  rw [happender, hslot]
  split_ifs <;> rfl

theorem Kept.word_filled (fill : List Edit) {index word : Nat} (hword : word < layout.words) :
    (usage.log.appendWith usage.appender fill).1.word (layout.bodyAt index + word * 8) =
      (Edit.written layout.words (onRecord index (usage.filled fill)) word).getD
        (usage.log.word (layout.bodyAt index + word * 8)) := by
  rw [happender, h.log.appendWith_written hcount fill hword, h.filled_eq hcount happender]
  by_cases hroom : count < usage.log.room
  · rw [if_pos hroom, onRecord_map]
    by_cases hsame : index = count
    · rw [if_pos ⟨hsame, hroom⟩, if_pos hsame.symm]
    · rw [if_neg fun hat => hsame hat.1, if_neg (Ne.symm hsame)]
      rfl
  · rw [if_neg fun hat => hroom hat.2, if_neg hroom]
    rfl

end Kept

section Kept

variable {usage : Usage} {layout : Layout} {capacity most index word : Nat}
  (h : usage.Kept layout capacity most) (hword : word < layout.words)

include h hword

theorem Kept.word_edit (view : Nat) (change : Edit) :
    (usage.edit view change).1.log.word (layout.bodyAt index + word * 8) =
      (Edit.written layout.words (onRecord index (usage.writes (.edit view change))) word).getD
        (usage.log.word (layout.bodyAt index + word * 8)) := by
  obtain rfl := h.log.layout_eq
  cases hview : usage.views[view]? with
  | none =>
      simp only [Usage.edit, Usage.writes, hview]
      rfl
  | some held =>
      obtain ⟨other, -, rfl⟩ := h.views held (List.mem_of_getElem? hview)
      have hone : onRecord index [(other, change)] = if other = index then [change] else [] :=
        onRecord_map index other [change]
      simp only [Usage.edit, Usage.writes, hview, recordOf_viewAt, hone, Log.edit]
      cases htarget : change.target usage.log.layout.words with
      | error fault =>
          simp only [Layout.viewAt, htarget]
          split_ifs <;> simp [Edit.written, Edit.writes, htarget]
      | ok target =>
          simp only [Layout.viewAt, htarget]
          rw [word_setBody _ (Edit.target_lt htarget) hword]
          by_cases hsame : other = index
          · subst hsame
            by_cases hat : word = target.1
            · simp [Edit.written, Edit.writes, htarget, hat]
            · simp [Edit.written, Edit.writes, htarget, hat, Ne.symm hat]
          · simp [Ne.symm hsame, hsame, Edit.written]

/-- After an act a word is what the act has written last to it, or what it was. -/
theorem Kept.word_act (act : Act)
    (happender : act.appends → ∃ count ≤ most, usage.appender = layout.appenderAt count) :
    (usage.act act).1.log.word (layout.bodyAt index + word * 8) =
      (Edit.written layout.words (onRecord index (usage.writes act)) word).getD
        (usage.log.word (layout.bodyAt index + word * 8)) := by
  have hreads : usage.writes act = [] → (usage.act act).1.log.words = usage.log.words →
      (usage.act act).1.log.word (layout.bodyAt index + word * 8) =
        (Edit.written layout.words (onRecord index (usage.writes act)) word).getD
          (usage.log.word (layout.bodyAt index + word * 8)) := by
    intro hnone hwords
    rw [hnone, Log.word, Log.word, hwords]
    rfl
  cases act with
  | append given =>
      obtain ⟨count, hcount, hstands⟩ := happender rfl
      change (usage.append given).1.log.word _ = _
      rw [log_append]
      simp only [Log.append, Usage.writes]
      split_ifs
      · rfl
      · exact h.word_filled hcount hstands (editsOf given) hword
  | appendWith fill =>
      obtain ⟨count, hcount, hstands⟩ := happender rfl
      change (usage.appendWith fill).1.log.word _ = _
      rw [log_appendWith]
      exact h.word_filled hcount hstands fill hword
  | edit view change => exact h.word_edit hword view change
  | next cursor => exact hreads rfl (congrArg Log.words (usage.log_next cursor))
  | seek cursor target => exact hreads rfl (congrArg Log.words (usage.log_seek cursor target))
  | pretouch =>
      obtain ⟨reached, hpretouch, -⟩ := h.amid.pretouch_eq
      apply hreads rfl
      rw [show usage.act .pretouch = _ from hpretouch]
  | tail => exact hreads rfl rfl
  | look view => exact hreads rfl rfl
  | count => exact hreads rfl rfl

end Kept

end Usage

/-! ### Whole histories -/

namespace Sessions

section Kept

variable {sessions : Sessions} {layout : Layout} {capacity : Nat}
  (h : sessions.Kept layout capacity)

include h

theorem Kept.word_writes (call : Call) {index word : Nat} (hword : word < layout.words) :
    (sessions.call call).usage.log.word (layout.bodyAt index + word * 8) =
      (Edit.written layout.words (onRecord index (sessions.writes call)) word).getD
        (sessions.usage.log.word (layout.bodyAt index + word * 8)) := by
  cases call with
  | take =>
      simp only [Sessions.call, takeAppender]
      split_ifs <;> rfl
  | release => rfl
  | use act =>
      simp only [Sessions.call, Sessions.writes]
      split_ifs with habsent
      · rfl
      · rw [use_log]
        refine h.usage.word_act hword act fun happends => h.holder ?_
        simpa [happends] using habsent

/-- After a history a word is what was written last to it, or what it was. -/
theorem Kept.word_history (calls : List Call) {index word : Nat} (hword : word < layout.words) :
    (sessions.run calls).usage.log.word (layout.bodyAt index + word * 8) =
      (Edit.written layout.words (onRecord index (sessions.history calls)) word).getD
        (sessions.usage.log.word (layout.bodyAt index + word * 8)) := by
  unfold Sessions.run
  induction calls generalizing sessions with
  | nil => rfl
  | cons first rest ih =>
      simp only [List.foldl_cons, Sessions.history, onRecord_append, Edit.written_append]
      rw [ih (h.call first), h.word_writes first hword]
      rw [Option.getD_or]

/-- An append that succeeds has a slot, and words that fit. -/
theorem Kept.append_slot {given : List Word} {index : Nat}
    (hanswer : sessions.answer (.use (.append given)) = .appended index) :
    sessions.usage.log.appenderTaken ∧ given.length ≤ layout.words ∧
      sessions.usage.appender = layout.appenderAt index ∧ index ≤ sessions.most ∧
      index < sessions.usage.log.room := by
  have hout : sessions.usage.log.appenderTaken := by
    by_contra hout
    simp [Sessions.answer, Act.appends, hout] at hanswer
  have hact : (sessions.usage.act (.append given)).2 = .appended index := by
    simpa [Sessions.answer, Act.appends, hout] using hanswer
  have happended : (sessions.usage.append given).2 = .appended index := hact
  obtain ⟨⟨rest, hcounts⟩, hstands, hroom, -, -⟩ := h.appends hout hact
  refine ⟨hout, ?_, hstands, le_most hcounts, hroom⟩
  by_contra hwide
  rw [Usage.append_answer, Log.append, h.usage.log.layout_eq, if_pos (by omega)] at happended
  cases happended

/-- It leaves behind the given words what stood there. -/
theorem Kept.append_record {given : List Word} {index : Nat}
    (hanswer : sessions.answer (.use (.append given)) = .appended index) :
    ((sessions.call (.use (.append given))).usage.log.record (layout.viewAt index)).words =
      (List.range layout.words).map fun word =>
        given[word]?.getD (sessions.usage.log.word (layout.bodyAt index + word * 8)) := by
  obtain ⟨hout, hfits, hstands, hindex, hroom⟩ := h.append_slot hanswer
  have hnarrow : layout.words < wordLimit := h.usage.log.layout_eq ▸ h.usage.log.sound.narrow
  have hworks := editsOf_works hnarrow given hfits
  have hall : (editsOf given).takeWhile (·.Works layout.words) = editsOf given :=
    List.takeWhile_eq_self_iff.mpr fun edit hedit => by simpa using hworks edit hedit
  have hwrites : onRecord index (sessions.writes (.use (.append given))) = editsOf given := by
    simp only [Sessions.writes, Act.appends, hout, not_true_eq_false, and_false, if_false,
      Usage.writes, h.usage.log.layout_eq, if_neg (Nat.not_lt.mpr hfits)]
    rw [h.usage.filled_eq hindex hstands, if_pos hroom, onRecord_map, if_pos rfl, hall]
  rw [record_words]
  refine List.map_congr_left fun word hword => ?_
  have hlt := List.mem_range.mp hword
  rw [h.word_writes _ hlt, hwrites, written_editsOf hnarrow given hfits]

end Kept

end Sessions

/-- Given words and what is left behind them. -/
theorem map_range_getD {width : Nat} (given : List Word) (left : Nat → Word)
    (hfits : given.length ≤ width) :
    ((List.range width).map fun word => given[word]?.getD (left word)) =
      given ++ (List.range' given.length (width - given.length)).map left := by
  apply List.ext_getElem
  · simp
    omega
  · intro word hword hword'
    simp only [List.getElem_map, List.getElem_range, List.getElem_append]
    split_ifs with hgiven
    · simp [hgiven]
    · simp only [List.getElem_range', List.getElem?_eq_none (Nat.not_lt.mp hgiven),
        Option.getD_none]
      congr 1
      omega

/-! ### One appender -/

/-- An act that is not made through the appender leaves the views that there are, and it adds views
of committed records only. -/
theorem Usage.Amid.views_act {usage : Usage} {layout : Layout} {capacity fillers records : Nat}
    (h : usage.Amid layout capacity fillers records) {act : Act} (hreads : act.appends = false) :
    ∀ view ∈ (usage.act act).1.views,
      view ∈ usage.views ∨ ∃ index < records, view = layout.viewAt index := by
  intro view hview
  cases act with
  | append given => cases hreads
  | appendWith fill => cases hreads
  | next cursor =>
      change view ∈ (usage.next cursor).1.views at hview
      cases hheld : usage.tailers[cursor]? with
      | none =>
          simp only [Usage.next, hheld] at hview
          exact .inl hview
      | some tailer =>
          obtain ⟨index, hindex, hstands⟩ := h.tailers tailer (List.mem_of_getElem? hheld)
          obtain ⟨after, -, hnext⟩ := h.next_eq hheld hindex hstands
          rw [hnext] at hview
          split_ifs at hview with hmore
          · rcases List.mem_append.mp hview with hold | hnew
            · exact .inl hold
            · exact .inr ⟨index, hmore, List.mem_singleton.mp hnew⟩
          · exact .inl hview
  | seek cursor target =>
      change view ∈ (usage.seek cursor target).1.views at hview
      cases hheld : usage.tailers[cursor]? with
      | none =>
          simp only [Usage.seek, hheld] at hview
          exact .inl hview
      | some tailer =>
          obtain ⟨index, hindex, hstands⟩ := h.tailers tailer (List.mem_of_getElem? hheld)
          obtain ⟨after, -, hseek⟩ := h.seek_eq hheld hindex hstands target
          rw [hseek] at hview
          exact .inl hview
  | edit held change =>
      obtain ⟨log, answer, hedit, -⟩ := h.edit_alike held change
      change view ∈ (usage.edit held change).1.views at hview
      rw [hedit] at hview
      exact .inl hview
  | pretouch =>
      obtain ⟨reached, hpretouch, -⟩ := h.pretouch_eq
      have hviews : (usage.act .pretouch).1.views = usage.views := by
        simp only [Usage.act, hpretouch]
      exact .inl (hviews ▸ hview)
  | tail => exact .inl hview
  | look held => exact .inl hview
  | count => exact .inl hview

/-- An append hands out, or lends, the view of its own record. -/
theorem Usage.Kept.views_append {usage : Usage} {layout : Layout} {capacity most count : Nat}
    (h : usage.Kept layout capacity most) (hcount : count ≤ most)
    (happender : usage.appender = layout.appenderAt count) {act : Act} (happends : act.appends) :
    ∀ view ∈ (usage.act act).1.views ++ usage.lent act,
      view ∈ usage.views ∨ view = layout.viewAt count := by
  have hown : ∀ view, (∃ slot, usage.log.slot usage.appender = .ok slot ∧
      view = ⟨slot.body, usage.log.layout.words⟩) → view = layout.viewAt count := by
    rintro view ⟨slot, hslot, rfl⟩
    exact (h.slot_view hcount happender hslot).2
  intro view hview
  rcases List.mem_append.mp hview with hview | hview
  · cases act with
    | append given =>
        change view ∈ (usage.append given).1.views at hview
        revert hview
        unfold Usage.append
        rcases usage.log.append usage.appender given with ⟨log, appender, problem | index⟩ <;>
          exact .inl
    | appendWith fill =>
        change view ∈ (usage.appendWith fill).1.views at hview
        revert hview
        unfold Usage.appendWith
        rcases usage.log.appendWith usage.appender fill with ⟨log, appender, problem | index⟩
        · exact .inl
        · exact fun hview => (List.mem_append.mp hview).imp_right fun hnew =>
            hown view (mem_handed hnew)
    | _ => cases happends
  · exact .inr (hown view (mem_lent hview).2)

namespace Sessions

theorem use_views {sessions : Sessions} {act : Act} : ∀ view ∈ (sessions.use act).usage.views,
    view ∈ (sessions.usage.act act).1.views ++ sessions.usage.lent act := by
  unfold use
  rcases sessions.usage.act act with ⟨after, answer⟩
  cases answer with
  | broken fault => exact fun view => id
  | _ => exact fun view => List.mem_append_left _

def breaks (sessions : Sessions) (call : Call) : Bool :=
  match call, sessions.answer call with
  | .use (.appendWith _), .broken _ => true
  | _, _ => false

def Unbroken (sessions : Sessions) (index : Nat) : List Call → Prop
  | [] => True
  | call :: rest => (sessions.counts.head? = some index → sessions.breaks call = false) ∧
      (sessions.call call).Unbroken index rest

instance decidableUnbroken (sessions : Sessions) (index : Nat) (calls : List Call) :
    Decidable (sessions.Unbroken index calls) :=
  match calls with
  | [] => .isTrue trivial
  | call :: rest =>
      have := decidableUnbroken (sessions.call call) index rest
      inferInstanceAs (Decidable ((sessions.counts.head? = some index →
        sessions.breaks call = false) ∧ (sessions.call call).Unbroken index rest))

section Kept

variable {sessions : Sessions} {layout : Layout} {capacity : Nat}
  (h : sessions.Kept layout capacity)

include h

/-- Where a log ends with one appender, there has been no other before. -/
theorem Kept.counts_before {calls : List Call} {index : Nat}
    (hlast : (sessions.run calls).counts = [index]) :
    sessions.counts = [] ∨ ∃ count ≤ index, sessions.counts = [count] := by
  unfold Sessions.run at hlast
  induction calls generalizing sessions with
  | nil => exact .inr ⟨index, Nat.le_refl _, hlast⟩
  | cons first rest ih =>
      -- Appenders are only ever added, and an appender only ever commits.
      have hafter := ih (h.call first) hlast
      have hcounts := h.counts_call first
      generalize (sessions.call first).counts = counts at hafter hcounts
      cases hcounts with
      | starts call => simp_all
      | commits act count more happends htaken hcounts =>
          rw [hcounts]
          simp only [reduceCtorEq, List.cons.injEq, false_or] at hafter ⊢
          obtain ⟨after, hafter, rfl, hmore⟩ := hafter
          exact ⟨count, by omega, rfl, hmore⟩
      | rests call => exact hafter

section Spares

variable {index : Nat} (hviews : ∀ view ∈ sessions.usage.views, view ≠ layout.viewAt index)

include hviews

/-- An append for this record that neither succeeds nor breaks is refused, and writes nothing. -/
theorem Kept.spares_own {act : Act} (happends : act.appends)
    (hout : sessions.usage.log.appenderTaken)
    (happender : sessions.usage.appender = layout.appenderAt index)
    (hindex : index ≤ sessions.most)
    (hfails : ∀ other, (sessions.usage.act act).2 ≠ .appended other)
    (hbreaks : sessions.breaks (.use act) = false) :
    onRecord index (sessions.usage.writes act) = [] ∧
      ∀ view ∈ (sessions.use act).usage.views, view ≠ layout.viewAt index := by
  have hfilled := h.usage.filled_eq hindex happender
  have hamid := h.usage.amid
  obtain rfl := h.usage.log.layout_eq
  have hfailed := hamid.act_fails (Nat.le_trans hindex h.usage.log.fits) happender happends hfails
  generalize hresult : sessions.usage.act act = result at hfailed
  have hrefused : result = (sessions.usage, .refused) →
      (sessions.use act).usage = sessions.usage := by
    rintro rfl
    unfold Sessions.use
    rw [hresult]
  cases hfailed with
  | wide given hwide =>
      rw [hrefused rfl]
      refine ⟨?_, hviews⟩
      simp only [Usage.writes, if_pos hwide]
      rfl
  | full act hfull =>
      rw [hrefused rfl]
      refine ⟨?_, hviews⟩
      simp only [if_neg (Nat.not_lt.mpr hfull)] at hfilled
      cases act with
      | append given =>
          simp only [Usage.writes, hfilled, ite_self]
          rfl
      | appendWith fill =>
          simp only [Usage.writes, hfilled]
          rfl
      | _ => cases happends
  | broken fill stores fault hroom hbody hfault =>
      simp [breaks, Sessions.answer, hout, hresult] at hbreaks

/-- An append for another record writes nothing to this one. -/
theorem Kept.spares_other {act : Act} {count : Nat} (happends : act.appends)
    (happender : sessions.usage.appender = layout.appenderAt count)
    (hcount : count ≤ sessions.most) (hother : count ≠ index) :
    onRecord index (sessions.usage.writes act) = [] ∧
      ∀ view ∈ (sessions.use act).usage.views, view ≠ layout.viewAt index := by
  have hapart : ∀ fill, onRecord index (sessions.usage.filled fill) = [] := by
    intro fill
    rw [h.usage.filled_eq hcount happender]
    split_ifs
    · rw [onRecord_map, if_neg hother]
    · rfl
  refine ⟨?_, fun view hview hat => ?_⟩
  · cases act with
    | append given =>
        simp only [Usage.writes]
        split_ifs
        · rfl
        · exact hapart _
    | appendWith fill => exact hapart fill
    | _ => cases happends
  · rcases h.usage.views_append hcount happender happends view (use_views view hview) with
      hold | hown
    · exact hviews view hold hat
    · have hrecord := congrArg (recordOf layout) (hown.symm.trans hat)
      rw [recordOf_viewAt, recordOf_viewAt] at hrecord
      exact hother hrecord

theorem Kept.spares_reads {act : Act} (hreads : act.appends = false)
    (hmost : sessions.most ≤ index) :
    onRecord index (sessions.usage.writes act) = [] ∧
      ∀ view ∈ (sessions.usage.act act).1.views, view ≠ layout.viewAt index := by
  refine ⟨?_, fun view hview hat => ?_⟩
  · cases act with
    | append given => cases hreads
    | appendWith fill => cases hreads
    | edit view change =>
        cases hheld : sessions.usage.views[view]? with
        | none =>
            simp only [Usage.writes, hheld]
            rfl
        | some held =>
            have hmember := List.mem_of_getElem? hheld
            obtain ⟨other, -, rfl⟩ := h.usage.views held hmember
            have hother : other ≠ index := fun hsame => hviews _ hmember (by rw [hsame])
            simp only [Usage.writes, hheld, h.usage.log.layout_eq, recordOf_viewAt]
            exact (onRecord_map index other [change]).trans (if_neg hother)
    | _ => rfl
  · rcases h.usage.amid.views_act hreads view hview with hold | ⟨other, hother, hnew⟩
    · exact hviews view hold hat
    · have hrecord := congrArg (recordOf layout) (hnew.symm.trans hat)
      rw [recordOf_viewAt, recordOf_viewAt] at hrecord
      omega

/-- As long as no fill of it breaks, nothing is written to a record before it is committed. -/
theorem Kept.spares_call {call : Call}
    (hcounts : sessions.counts = [] ∨ ∃ count ≤ index, sessions.counts = [count])
    (hafter : (sessions.call call).counts ≠ [index + 1])
    (hbreaks : sessions.counts.head? = some index → sessions.breaks call = false) :
    onRecord index (sessions.writes call) = [] ∧
      ∀ view ∈ (sessions.call call).usage.views, view ≠ layout.viewAt index := by
  have hmost : sessions.most ≤ index := by
    rcases hcounts with hnone | ⟨count, hcount, hone⟩
    · simp [most, hnone]
    · simpa [most, hone] using hcount
  cases call with
  | take =>
      refine ⟨rfl, ?_⟩
      simp only [Sessions.call, takeAppender]
      split_ifs <;> exact hviews
  | release => exact ⟨rfl, hviews⟩
  | use act =>
      cases happends : act.appends with
      | false =>
          obtain ⟨-, -, -, hnone⟩ := h.usage.amid.act happends
          rw [call_reads happends hnone]
          simp only [Sessions.writes, happends, Bool.false_eq_true, false_and, if_false]
          exact h.spares_reads hviews happends hmost
      | true =>
          simp only [Sessions.call, Sessions.writes] at hafter ⊢
          split_ifs at hafter ⊢ with habsent
          · exact ⟨rfl, hviews⟩
          · have hout : sessions.usage.log.appenderTaken := by simpa [happends] using habsent
            obtain ⟨count, rest, hcurrent, hcount, happender⟩ := h.current hout
            obtain rfl : rest = [] := by
              rcases hcounts with hnone | ⟨other, -, hone⟩ <;> simp_all
            by_cases hsame : count = index
            · subst hsame
              refine h.spares_own hviews happends hout happender hcount (fun other hother => ?_)
                (hbreaks (by rw [hcurrent]; rfl))
              apply hafter
              rw [use_appended ⟨other, hother⟩, hcurrent]
              rfl
            · exact h.spares_other hviews happends happender hcount hsame

theorem Kept.history_spares {calls : List Call} (hlast : (sessions.run calls).counts = [index])
    (hunbroken : sessions.Unbroken index calls) : onRecord index (sessions.history calls) = [] := by
  -- A view of the record would let an edit write to it, so it is carried along that there is none.
  induction calls generalizing sessions with
  | nil => rfl
  | cons first rest ih =>
      have hcounts := h.counts_before hlast
      have hafter : (sessions.call first).counts = [] ∨
          ∃ count ≤ index, (sessions.call first).counts = [count] :=
        (h.call first).counts_before hlast
      obtain ⟨hwrites, hviews⟩ := h.spares_call hviews hcounts
        (by rcases hafter with hnone | ⟨count, hcount, hone⟩ <;> simp_all; omega) hunbroken.1
      simp only [Sessions.history, onRecord_append, hwrites, List.nil_append]
      exact ih (h.call first) hviews hlast hunbroken.2

end Spares

end Kept

end Sessions

/-- The record that an append of given words commits where `left` has been written before. It is
filled up with what was left behind the given words, and with zeros only if that was zero. -/
structure Appended (log : Log) (layout : Layout) (index : Nat) (given : List Word)
    (left : List Edit) : Prop where
  fits : given.length ≤ layout.words
  words : (log.record (layout.viewAt index)).words =
    given ++ (List.range' given.length (layout.words - given.length)).map fun word =>
      (Edit.written layout.words left word).getD 0
  zeros : (log.record (layout.viewAt index)).words =
      given ++ List.replicate (layout.words - given.length) 0 ↔
    ∀ word, given.length ≤ word → word < layout.words →
      (Edit.written layout.words left word).getD 0 = 0

theorem Appended.of_words {log : Log} {layout : Layout} {index : Nat} {given : List Word}
    {left : List Edit} (hfits : given.length ≤ layout.words)
    (hwords : (log.record (layout.viewAt index)).words = (List.range layout.words).map fun word =>
      given[word]?.getD ((Edit.written layout.words left word).getD 0)) :
    Appended log layout index given left := by
  rw [map_range_getD given _ hfits] at hwords
  refine ⟨hfits, hwords, ?_⟩
  rw [hwords, List.append_right_inj, List.eq_replicate_iff]
  simp only [List.length_map, List.length_range', true_and, List.mem_map, List.mem_range'_1,
    forall_exists_index, and_imp]
  constructor
  · exact fun hzeros word hbehind hword => hzeros _ word hbehind (by omega) rfl
  · rintro hzeros _ word hbehind hword rfl
    exact hzeros word hbehind (by omega)

namespace Sessions

/-- Over every history of a log, an append leaves behind the given words what was written there
last. With one appender, and no fill of this record broken, that is nothing. -/
theorem run_appended {storage after : Storage} {directory name : String} {stages bytes : Nat}
    {layout : Layout} {log : Log} (hlayout : Layout.ofStages stages = .ok layout)
    (hcreate : Log.create storage directory name layout bytes = (after, .ok log))
    (calls : List Call) {given : List Word} {index : Nat}
    (hanswer : ((begin log).run calls).answer (.use (.append given)) = .appended index) :
    let sessions := (begin log).run calls
    let added := (sessions.call (.use (.append given))).usage.log
    Appended added layout index given (onRecord index ((begin log).history calls)) ∧
      (sessions.counts = [index] → (begin log).Unbroken index calls →
        (added.record (layout.viewAt index)).words =
          given ++ List.replicate (layout.words - given.length) 0) := by
  have hbegin := begin_kept hlayout hcreate
  have hkept := hbegin.run calls
  obtain ⟨hholds, hsame, -⟩ := create_holds (Layout.ofStages_ok hlayout).1 hcreate
  obtain ⟨-, hfits, -⟩ := hkept.append_slot hanswer
  have hrecord := hkept.append_record hanswer
  have hleft : ∀ word ∈ List.range layout.words, given[word]?.getD
        (((begin log).run calls).usage.log.word (layout.bodyAt index + word * 8)) =
      given[word]?.getD ((Edit.written layout.words
        (onRecord index ((begin log).history calls)) word).getD 0) := by
    intro word hword
    have hlt := List.mem_range.mp hword
    have hfresh : log.word (layout.bodyAt index + word * 8) = 0 := by
      obtain rfl := hsame
      exact hholds.content index word hlt
    rw [hbegin.word_history calls hlt]
    exact congrArg (fun old => given[word]?.getD (Option.getD _ old)) hfresh
  rw [List.map_congr_left hleft] at hrecord
  have happended := Appended.of_words hfits hrecord
  refine ⟨happended, fun hone hunbroken => happended.zeros.mpr fun word _ _ => ?_⟩
  rw [hbegin.history_spares (by simp [begin]) hone hunbroken]
  rfl

/-- A fill of the first record breaks before it is appended: behind one given word the second record
has zeros. Then a fill of the second breaks as well, and the words it left stand behind the given
one. -/
theorem run_appended_behind_broken :
    let fresh := begin ⟨"main", "/main.log", 4096, ⟨1⟩, .zeros, 0, 0, 0, false⟩
    let clean := [.take, .use (.appendWith [.stamp 1 9, .stamp 5 1]), .use (.append [1, 100])]
    let calls := clean ++
      [.use (.appendWith [.stamp 0 7, .stamp 1 8, .stamp 5 1]), .use (.append [1, 2, 3, 4])]
    (((fresh.run clean).call (.use (.append [5]))).usage.log.record
        (Layout.viewAt ⟨1⟩ 1)).words = [5, 0, 0] ∧
      onRecord 1 (fresh.history calls) = [.stamp 0 7, .stamp 1 8] ∧
      (((fresh.run calls).call (.use (.append [5]))).usage.log.record
        (Layout.viewAt ⟨1⟩ 1)).words = [5, 7, 8] := by
  intro fresh clean calls
  have happended : ∀ calls, (fresh.run calls).answer (.use (.append [5])) = .appended 1 →
      let added := ((fresh.run calls).call (.use (.append [5]))).usage.log
      Appended added ⟨1⟩ 1 [5] (onRecord 1 (fresh.history calls)) ∧
        ((fresh.run calls).counts = [1] → fresh.Unbroken 1 calls →
          (added.record (Layout.viewAt ⟨1⟩ 1)).words = [5] ++ List.replicate (3 - 1) 0) :=
    fun calls => @run_appended .empty _ "/" "main" 1 100 ⟨1⟩ _ rfl (Prod.ext rfl rfl) calls _ _
  have hleft : onRecord 1 (fresh.history calls) = [.stamp 0 7, .stamp 1 8] := by decide
  obtain ⟨hfilled, -⟩ := happended calls (by decide)
  rw [hleft] at hfilled
  exact ⟨(happended clean (by decide)).2 (by decide) (by decide), hleft,
    hfilled.words.trans (by decide)⟩

/-- One appender, and a fill that breaks behind its first word. The record that is appended then
has that word behind the given ones. -/
theorem append_keeps_broken_fill :
    let sessions := (begin ⟨"main", "/main.log", 4096, ⟨1⟩, .zeros, 0, 0, 0, false⟩).run
      [.take, .use (.appendWith [.stamp 1 7, .stamp 5 1])]
    let added := (sessions.call (.use (.append [0, 100]))).usage.log
    sessions.answer (.use (.append [0, 100])) = .appended 0 ∧
      (added.record ⟨64, 3⟩).words = [0, 100, 7] ∧
      ¬ (added.record ⟨64, 3⟩).words = [0, 100] ++ List.replicate (3 - 2) 0 := by
  decide

end Sessions

end GatedPipeline.Log
