import MuServer.AsyncLogger

/-!
# What the logger writes before `stop` returns

The thread looks at `running_` at the top of a turn and leaves at once when it
is cleared. So the lines in the front end at the time of `stop` are written
only if the thread is between its test and its exchange.
-/

set_option autoImplicit false

namespace MuServer.AsyncLogger

open Lib

def Delivers (lines : List Bytes) (s : AsyncLogger) : Prop :=
  s.between = true ∨ recorded lines <+: s.taken

theorem recorded_prefix (lines all : List Bytes) (h : lines <+: all) :
    recorded lines <+: recorded all := by
  obtain ⟨later, rfl⟩ := h
  unfold recorded
  rw [List.filter_append, List.flatten_append, List.map_append]
  exact List.prefix_append _ _

theorem step_appended (s t : AsyncLogger) (a : LogAct) (h : Effect s t a) :
    s.appended <+: t.appended := by
  rcases h with ⟨line, -, -, happended, -, -⟩ | ⟨now, hst⟩ | ⟨_, -, -, happended, -, -⟩
  · rw [happended]
    exact List.prefix_append _ _
  · exact hst.appended ▸ List.prefix_refl _
  · exact happended ▸ List.prefix_refl _

theorem few_statement (s t : AsyncLogger) (now : Bytes) (hst : Statement s t)
    (hfew : s.few (.thread now) = true) : Moves s t := by
  apply hst.moves
  intro hphase
  simpa [few, hphase] using hfew

theorem step_delivers (lines : List Bytes) (s t : AsyncLogger) (a : LogAct) (hc : Complete s)
    (hlines : lines <+: s.appended) (hd : Delivers lines s) (hfew : s.few a = true)
    (h : Effect s t a) : Delivers lines t := by
  rcases h with ⟨line, htaken, -, -, hphase, -⟩ | ⟨now, hst⟩ | ⟨_, htaken, -, -, hbetween, -⟩
  · unfold Delivers between at hd ⊢
    rwa [htaken, hphase]
  · rcases few_statement s t now hst hfew with ⟨htaken, -, hstays, -⟩ | ⟨-, -, htaken, -⟩
    · refine hd.imp hstays ?_
      rw [htaken]
      exact id
    · -- the exchange takes everything there is
      right
      rw [htaken, hc]
      exact recorded_prefix lines s.appended hlines
  · unfold Delivers at hd ⊢
    rwa [htaken, hbetween]

/-- The thread will not exchange the buffers again, and `bytes` is what it has taken. -/
structure Leaving (bytes : List (Option Byte)) (s : AsyncLogger) : Prop where
  running : s.running_ = false
  begun : s.phase ≠ .unstarted
  outside : s.between = false
  taken : s.taken = bytes

theorem step_leaving (bytes : List (Option Byte)) (s t : AsyncLogger) (a : LogAct)
    (hs : Leaving bytes s) (hfew : s.few a = true) (h : Effect s t a) : Leaving bytes t := by
  rcases h with ⟨line, htaken, -, -, hphase, hrunning⟩ | ⟨now, hst⟩
    | ⟨_, htaken, -, -, hbetween, hquiet⟩
  · refine ⟨hrunning.trans hs.running, ?_, ?_, htaken.trans hs.taken⟩
    · rw [hphase]
      exact hs.begun
    · have houtside := hs.outside
      unfold between at houtside ⊢
      rwa [hphase]
  · rcases few_statement s t now hst hfew with ⟨htaken, -, -, htest⟩ | ⟨hbetween, -, -, -⟩
    · refine ⟨hst.running.trans hs.running, hst.begun hs.begun, ?_, htaken.trans hs.taken⟩
      -- a turn begins only while `running_` is set
      rw [← Bool.not_eq_true]
      intro hbetween
      rcases htest hbetween with hset | hset
      · exact absurd (hs.running.symm.trans hset) (by simp)
      · exact absurd (hs.outside.symm.trans hset) (by simp)
    · exact absurd (hs.outside.symm.trans hbetween) (by simp)
  · obtain ⟨hphase, hrunning⟩ := hquiet hs.begun
    refine ⟨hrunning hs.running, ?_, hbetween.trans hs.outside, htaken.trans hs.taken⟩
    rw [hphase]
    exact hs.begun

theorem reach_books (s : AsyncLogger) (h : Machine.Reach step (fun s a => s.few a = true) {} s) :
    Sound s ∧ Complete s :=
  ⟨reach_sound s (Machine.reach_mono step _ _ _ (fun _ _ _ => trivial) s h), reach_complete s h⟩

theorem stop_eq (s s' : AsyncLogger) (h : step s .stop = some s') :
    s.phase ≠ .unstarted ∧ s' = s.stop := by
  obtain ⟨-, h⟩ := Option.ite_none_left_eq_some.mp h
  obtain ⟨hcan, h⟩ := Option.ite_none_left_eq_some.mp h
  push Not at hcan
  exact ⟨hcan.1, (Option.some.inj h).symm⟩

theorem join_eq (t u : AsyncLogger) (h : step t .join = some u) :
    t.phase = .ended ∧ u.output = t.output := by
  obtain ⟨-, h⟩ := Option.ite_none_left_eq_some.mp h
  obtain ⟨hcan, h⟩ := Option.ite_none_right_eq_some.mp h
  obtain rfl := Option.some.inj h
  exact ⟨hcan.2.1, rfl⟩

theorem taken_ended (t : AsyncLogger) (h : t.phase = .ended) : t.taken = t.output := by
  simp [taken, pending, h, texts]

theorem between_ended (t : AsyncLogger) (h : t.phase = .ended) : t.between = false := by
  simp [between, h]

theorem reach_delivers (lines : List Bytes) (s t : AsyncLogger) (hs : Sound s ∧ Complete s)
    (hlines : lines <+: s.appended) (hd : Delivers lines s)
    (h : Machine.Reach step (fun s a => s.few a = true) s t) : Delivers lines t := by
  have hall : (Sound t ∧ Complete t) ∧ lines <+: t.appended ∧ Delivers lines t := by
    refine Machine.reach_invariant step _ _
      (fun s => (Sound s ∧ Complete s) ∧ lines <+: s.appended ∧ Delivers lines s) ?_ ?_ t h
    · exact ⟨hs, hlines, hd⟩
    · intro s a t hs hfew ht
      obtain ⟨⟨hsound, hcomplete⟩, hlines, hd⟩ := hs
      obtain ⟨htsound, heffect⟩ := step_effect s t a hsound ht
      exact ⟨⟨htsound, step_complete s t a hsound hcomplete hfew ht⟩,
        hlines.trans (step_appended s t a heffect),
        step_delivers lines s t a hcomplete hlines hd hfew heffect⟩
  exact hall.2.2

theorem reach_leaving (bytes : List (Option Byte)) (s t : AsyncLogger) (hs : Sound s)
    (hleaving : Leaving bytes s) (h : Machine.Reach step (fun s a => s.few a = true) s t) :
    Leaving bytes t := by
  have hall : Sound t ∧ Leaving bytes t := by
    refine Machine.reach_invariant step _ _ (fun s => Sound s ∧ Leaving bytes s) ?_ ?_ t h
    · exact ⟨hs, hleaving⟩
    · intro s a t hs hfew ht
      obtain ⟨htsound, heffect⟩ := step_effect s t a hs.1 ht
      exact ⟨htsound, step_leaving bytes s t a hs.2 hfew heffect⟩
  exact hall.2

/-- `stop` is called in `s` and returns in `u`. The lines from before are in
the file exactly when the thread has still to exchange the buffers, or there is
nothing left in them. -/
theorem stop_writes_iff (s s' t u : AsyncLogger)
    (hs : Machine.Reach step (fun s a => s.few a = true) {} s) (hstop : step s .stop = some s')
    (ht : Machine.Reach step (fun s a => s.few a = true) s' t) (hjoin : step t .join = some u) :
    recorded s.appended <+: u.output ↔ s.between = true ∨ s.front = [] := by
  obtain ⟨hsound, hcomplete⟩ := reach_books s hs
  obtain ⟨hbegun, rfl⟩ := stop_eq s s' hstop
  obtain ⟨hended, houtput⟩ := join_eq t u hjoin
  have hstopped := reach_books s.stop (.next s .stop s.stop hs rfl hstop)
  rw [houtput, ← taken_ended t hended]
  constructor
  · intro hwritten
    by_contra hnot
    push Not at hnot
    obtain ⟨hbetween, hfront⟩ := hnot
    -- what the front end holds at `stop` is missing from the file
    have hleaving := reach_leaving s.taken s.stop t hstopped.1
      ⟨rfl, hbegun, Bool.eq_false_iff.mpr hbetween, rfl⟩ ht
    rw [hleaving.taken, ← hcomplete] at hwritten
    have hlength := hwritten.length_le
    rw [List.length_append] at hlength
    exact hfront (List.eq_nil_of_length_eq_zero (by omega))
  · intro hcan
    have hd : Delivers s.appended s.stop := by
      rcases hcan with hbetween | hfront
      · exact Or.inl hbetween
      · right
        rw [← hcomplete, hfront, List.append_nil]
        exact List.prefix_refl _
    have hdelivers := reach_delivers s.appended s.stop t hstopped (List.prefix_refl _) hd ht
    rcases hdelivers with hbetween | hwritten
    · exact absurd ((between_ended t hended).symm.trans hbetween) (by simp)
    · exact hwritten

/-- A line that the waiting thread still takes. -/
theorem stop_writes_waiting : ∃ s u : AsyncLogger, s.appended = [bytes "a\n"]
    ∧ u.joined = true ∧ (recorded s.appended <+: u.output) := by
  have hrun : ∃ s s' t u,
      Machine.run step {} [.start, .thread [], .thread [], .thread [], .append (bytes "a\n")]
        = some s
      ∧ step s .stop = some s'
      ∧ Machine.run step s' [.thread [], .thread [], .thread [], .thread [], .thread []] = some t
      ∧ step t .join = some u ∧ s.appended = [bytes "a\n"] ∧ u.joined = true
      ∧ s.between = true
      ∧ Machine.runMeets step few {}
        [.start, .thread [], .thread [], .thread [], .append (bytes "a\n")] = true
      ∧ Machine.runMeets step few s' [.thread [], .thread [], .thread [], .thread [], .thread []]
        = true := by
    exact ⟨_, _, _, _, rfl, rfl, rfl, rfl, rfl, rfl, rfl, rfl, rfl⟩
  obtain ⟨s, s', t, u, hs, hstop, ht, hjoin, happended, hjoined, hbetween, hok, hok'⟩ := hrun
  refine ⟨s, u, happended, hjoined, ?_⟩
  exact (stop_writes_iff s s' t u (Machine.run_reach step few {} s _ hs hok) hstop
    (Machine.run_reach step few s' t _ ht hok') hjoin).mpr (Or.inl hbetween)

/-- A line that is appended before the first turn of the thread is lost. -/
theorem stop_loses : ¬ ∀ s s' t u : AsyncLogger,
    Machine.Reach step (fun s a => s.few a = true) {} s → step s .stop = some s' →
    Machine.Reach step (fun s a => s.few a = true) s' t → step t .join = some u →
    recorded s.appended <+: u.output := by
  have hrun : ∃ s s' t u, Machine.run step {} [.start, .append (bytes "a\n")] = some s
      ∧ step s .stop = some s' ∧ Machine.run step s' [.thread [], .thread []] = some t
      ∧ step t .join = some u ∧ s.appended = [bytes "a\n"] ∧ u.output = []
      ∧ Machine.runMeets step few {} [.start, .append (bytes "a\n")] = true
      ∧ Machine.runMeets step few s' [.thread [], .thread []] = true := by
    exact ⟨_, _, _, _, rfl, rfl, rfl, rfl, rfl, rfl, rfl, rfl⟩
  obtain ⟨s, s', t, u, hs, hstop, ht, hjoin, happended, houtput, hok, hok'⟩ := hrun
  intro h
  have hwritten := h s s' t u (Machine.run_reach step few {} s _ hs hok) hstop
    (Machine.run_reach step few s' t _ ht hok') hjoin
  rw [happended, houtput, List.prefix_nil] at hwritten
  exact absurd hwritten (by decide)

end MuServer.AsyncLogger
