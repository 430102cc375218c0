import SdSearch.Lib.FileProgram

/-!
# Runs that are cut

A program that is killed between two calls leaves the directory as it is then.  The same
directory is left by a run to the end in which every later call that would change a file
fails: what a program leaves when it is cut is something that it may leave when it is not.
-/

namespace FileProgram

variable {ε α : Type}

/-- A call that only looks is carried out if it can be. -/
def Event.LooksSound (event : Event ε) : Prop := event.call.changes = [] → event.Sound

namespace Prog

/-- The first events of a run are a run. -/
theorem Runs.take {prog rest : Prog ε α} {dir last : Directory} {past future : List (Event ε)}
    (h : Runs prog dir (past ++ future) rest last) :
    ∃ cut middle, Runs prog dir past cut middle ∧ Runs cut middle future rest last := by
  induction past generalizing prog dir with
  | nil => exact ⟨prog, dir, .stop prog dir, h⟩
  | cons event past ih =>
      cases h with
      | step hacts hnext =>
          obtain ⟨cut, middle, hpast, hfuture⟩ := ih hnext
          exact ⟨cut, middle, .step hacts hpast, hfuture⟩

/-- **A program can end with the directory as it is.** -/
theorem exists_runs_idle (error : ε) (prog : Prog ε α) (dir : Directory) : ∃ a events,
    prog.Runs dir events (.done a) dir ∧ ∀ event ∈ events, event.LooksSound := by
  induction prog with
  | done a => exact ⟨a, [], .stop _ dir, fun event hevent => absurd hevent List.not_mem_nil⟩
  | ask call next ih =>
      by_cases hlooks : call.changes = []
      · cases hperform : call.perform dir with
        | none =>
            obtain ⟨a, events, hruns, hsound⟩ := ih (.error error)
            refine ⟨a, _, .step (.failed (.nothing call)) hruns, List.forall_mem_cons.mpr ⟨?_, hsound⟩⟩
            intro _ reply after hsome
            cases hperform.symm.trans hsome
        | some outcome =>
            obtain ⟨reply, after⟩ := outcome
            have hacts : Event.Acts (⟨dir, call, .ok reply, after⟩ : Event ε) := .done hperform
            have hafter : after = dir := hacts.after_eq hlooks
            subst hafter
            obtain ⟨a, events, hruns, hsound⟩ := ih (.ok reply)
            refine ⟨a, _, .step hacts hruns, List.forall_mem_cons.mpr ⟨?_, hsound⟩⟩
            intro _ reply' after' hsome
            obtain ⟨rfl, rfl⟩ := Prod.mk.inj (Option.some.inj (hperform.symm.trans hsome))
            exact ⟨rfl, rfl⟩
      · obtain ⟨a, events, hruns, hsound⟩ := ih (.error error)
        exact ⟨a, _, .step (.failed (.nothing call)) hruns,
          List.forall_mem_cons.mpr ⟨fun hnone => absurd hnone hlooks, hsound⟩⟩

/-- **What a program that is cut leaves, it may leave when it ends.** -/
theorem Obeys.of_cut {assume rule : Event ε → Prop} {prog rest : Prog ε α}
    {post : α → Directory → Prop} {dir last : Directory} {events : List (Event ε)}
    (h : prog.Obeys assume rule post dir) (hruns : Runs prog dir events rest last)
    (hassume : ∀ event ∈ events, assume event)
    (hlooks : ∀ event : Event ε, event.LooksSound → assume event) (error : ε) :
    ∃ a, post a last := by
  obtain ⟨-, hrest⟩ := h.of_runs hruns hassume
  obtain ⟨a, idle, hidle, hsound⟩ := rest.exists_runs_idle error last
  exact ⟨a, (hrest.of_runs hidle fun event hevent => hlooks event (hsound event hevent)).2⟩

end Prog

/-- Events lead from a directory to one directory only. -/
theorem Chain.unique {rule : Event ε → Prop} {first last last' : Directory}
    {events : List (Event ε)} (h : Chain rule first events last) (h' : Chain rule first events last') :
    last = last' := by
  induction h with
  | nil dir =>
      cases h'
      rfl
  | cons _ _ _ ih =>
      obtain ⟨-, -, hrest⟩ := h'.of_cons
      exact ih hrest

end FileProgram
