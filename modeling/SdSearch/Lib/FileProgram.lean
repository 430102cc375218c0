import SdSearch.Lib.ByteReader

/-!
# Programs over the files of a directory

A program asks the directory for one thing at a time and goes on with the answer.
Any call may fail: a failed write may leave a part of the file behind, every other
failed call leaves the directory as it was.  A crash is a run that stops between two
calls, so that whatever a run can stop at is what a crash can leave.

`Obeys` is the logic: under an assumption about the events of a run, every event keeps
a rule, and the value the program returns, with the directory it leaves, has a property.
-/

namespace FileProgram

open ByteReader

/-- The files of a directory, by name. -/
abbrev Directory := Std.ExtTreeMap String Bytes

theorem Directory.getElem?_insert_self (dir : Directory) (name : String) (bytes : Bytes) :
    (dir.insert name bytes)[name]? = some bytes := Std.ExtTreeMap.getElem?_insert_self

theorem Directory.getElem?_insert_of_ne (dir : Directory) {name other : String} (bytes : Bytes)
    (h : name ≠ other) : (dir.insert name bytes)[other]? = dir[other]? := by
  rw [Std.ExtTreeMap.getElem?_insert, if_neg]
  rwa [Std.LawfulEqCmp.compare_eq_iff_eq]

theorem Directory.getElem?_erase_of_ne (dir : Directory) {name other : String} (h : name ≠ other) :
    (dir.erase name)[other]? = dir[other]? := by
  rw [Std.ExtTreeMap.getElem?_erase, if_neg]
  rwa [Std.LawfulEqCmp.compare_eq_iff_eq]

/-- What a program can ask. -/
inductive Call where
  | read (name : String)
  | exists (name : String)
  | list
  | write (name : String) (bytes : Bytes)
  | rename (source target : String)
  | remove (name : String)
  deriving DecidableEq, Repr

namespace Call

/-- What a call answers. -/
abbrev Reply : Call → Type
  | read _ => Bytes
  | .exists _ => Bool
  | list => List String
  | write _ _ => Unit
  | rename _ _ => Unit
  | remove _ => Unit

/-- A call that is carried out, if its file is there. -/
def perform (dir : Directory) : (call : Call) → Option (call.Reply × Directory)
  | read name => dir[name]?.map fun bytes => (bytes, dir)
  | .exists name => some (dir.contains name, dir)
  | list => some (dir.keys, dir)
  | write name bytes => some ((), dir.insert name bytes)
  | rename source target =>
      dir[source]?.map fun bytes => ((), (dir.erase source).insert target bytes)
  | remove name => if dir.contains name then some ((), dir.erase name) else none

/-- What a failed call can leave behind. -/
inductive Leaves (dir : Directory) : Call → Directory → Prop where
  | nothing (call : Call) : Leaves dir call dir
  | torn (name : String) (bytes piece : Bytes) (h : piece <+: bytes) :
      Leaves dir (write name bytes) (dir.insert name piece)

/-- The names a call changes. -/
def changes : Call → List String
  | write name _ => [name]
  | rename source target => [source, target]
  | remove name => [name]
  | _ => []

end Call

section Programs

variable {ε α β σ : Type}

/-- A call that was made, with its outcome. -/
structure Event (ε : Type) where
  before : Directory
  call : Call
  reply : Except ε call.Reply
  after : Directory

/-- The event is one that the directory allows. -/
inductive Event.Acts : Event ε → Prop where
  | done {dir after : Directory} {call : Call} {reply : call.Reply}
      (h : call.perform dir = some (reply, after)) : Acts ⟨dir, call, .ok reply, after⟩
  | failed {dir after : Directory} {call : Call} {error : ε} (h : call.Leaves dir after) :
      Acts ⟨dir, call, .error error, after⟩

/-- A file that no call changes keeps its bytes, whatever the outcome. -/
theorem Event.Acts.getElem?_after {event : Event ε} (h : event.Acts) {name : String}
    (hname : name ∉ event.call.changes) : event.after[name]? = event.before[name]? := by
  cases h with
  | @done dir after call reply h =>
      cases call with
      | read other =>
          obtain ⟨bytes, -, hbytes⟩ := Option.map_eq_some_iff.mp h
          rw [← (Prod.mk.inj hbytes).2]
      | «exists» other => rw [← (Prod.mk.inj (Option.some.inj h)).2]
      | list => rw [← (Prod.mk.inj (Option.some.inj h)).2]
      | write other bytes =>
          have hne : other ≠ name := fun heq => hname (List.mem_singleton.mpr heq.symm)
          rw [← (Prod.mk.inj (Option.some.inj h)).2, dir.getElem?_insert_of_ne bytes hne]
      | rename source target =>
          obtain ⟨bytes, -, hbytes⟩ := Option.map_eq_some_iff.mp h
          have hsource : source ≠ name := fun heq => hname (heq ▸ List.mem_cons_self)
          have htarget : target ≠ name := fun heq =>
            hname (heq ▸ List.mem_cons_of_mem _ (List.mem_singleton.mpr rfl))
          rw [← (Prod.mk.inj hbytes).2, Directory.getElem?_insert_of_ne _ bytes htarget,
            dir.getElem?_erase_of_ne hsource]
      | remove other =>
          have hne : other ≠ name := fun heq => hname (List.mem_singleton.mpr heq.symm)
          rw [Call.perform] at h
          split_ifs at h
          rw [← (Prod.mk.inj (Option.some.inj h)).2, dir.getElem?_erase_of_ne hne]
  | failed h =>
      cases h with
      | nothing => rfl
      | torn other bytes piece h =>
          have hne : other ≠ name := fun heq => hname (List.mem_singleton.mpr heq.symm)
          exact Directory.getElem?_insert_of_ne _ piece hne

/-- A call that changes nothing. -/
theorem Event.Acts.after_eq {event : Event ε} (h : event.Acts) (hcall : event.call.changes = []) :
    event.after = event.before := by
  refine Std.ExtTreeMap.ext_getElem? fun name => h.getElem?_after ?_
  rw [hcall]
  exact List.not_mem_nil

/-! ## Programs -/

/-- A program: it returns, or makes a call and goes on with the outcome. -/
inductive Prog (ε α : Type) where
  | done (a : α)
  | ask (call : Call) (next : Except ε call.Reply → Prog ε α)

namespace Prog

/-- One program after the other. -/
protected def bind : Prog ε α → (α → Prog ε β) → Prog ε β
  | .done a, next => next a
  | .ask call rest, next => .ask call fun reply => (rest reply).bind next

instance : Monad (Prog ε) where
  pure := .done
  bind := Prog.bind

theorem bind_done (a : α) (next : α → Prog ε β) : (Prog.done a >>= next) = next a := rfl

theorem bind_ask (call : Call) (rest : Except ε call.Reply → Prog ε α) (next : α → Prog ε β) :
    (Prog.ask call rest >>= next) = .ask call fun reply => rest reply >>= next := rfl

theorem bind_assoc {γ : Type} (prog : Prog ε α) (first : α → Prog ε β) (second : β → Prog ε γ) :
    prog >>= first >>= second = prog >>= fun a => first a >>= second := by
  induction prog with
  | done a => rfl
  | ask call next ih =>
      rw [bind_ask, bind_ask, bind_ask]
      exact congrArg _ (funext ih)

theorem id_map (prog : Prog ε α) : id <$> prog = prog := by
  induction prog with
  | done a => rfl
  | ask call next ih => exact congrArg _ (funext ih)

instance : LawfulMonad (Prog ε) := .mk' _ id_map (fun _ _ => rfl) bind_assoc

/-- A single call. -/
def issue (call : Call) : Prog ε (Except ε call.Reply) := .ask call .done

/-! ## Runs -/

/-- The program runs for a while: the events, what is left of it and the directory. -/
inductive Runs : Prog ε α → Directory → List (Event ε) → Prog ε α → Directory → Prop where
  | stop (prog : Prog ε α) (dir : Directory) : Runs prog dir [] prog dir
  | step {call : Call} {next : Except ε call.Reply → Prog ε α} {reply : Except ε call.Reply}
      {dir after last : Directory} {events : List (Event ε)} {rest : Prog ε α}
      (h : Event.Acts ⟨dir, call, reply, after⟩) (hnext : Runs (next reply) after events rest last) :
      Runs (.ask call next) dir (⟨dir, call, reply, after⟩ :: events) rest last

/-- Under the assumption every event keeps the rule, and the program ends as the
postcondition says. -/
def Obeys (assume rule : Event ε → Prop) : Prog ε α → (α → Directory → Prop) → Directory → Prop
  | .done a, post, dir => post a dir
  | .ask call next, post, dir => ∀ reply after, Event.Acts ⟨dir, call, reply, after⟩ →
      assume ⟨dir, call, reply, after⟩ →
        rule ⟨dir, call, reply, after⟩ ∧ Obeys assume rule (next reply) post after

variable {assume rule : Event ε → Prop} {post post' : α → Directory → Prop} {dir : Directory}

theorem Obeys.mono {prog : Prog ε α} (h : prog.Obeys assume rule post dir)
    (hpost : ∀ a after, post a after → post' a after) : prog.Obeys assume rule post' dir := by
  induction prog generalizing dir with
  | done a => exact hpost a dir h
  | ask call next ih =>
      intro reply after hacts hassume
      obtain ⟨hrule, hnext⟩ := h reply after hacts hassume
      exact ⟨hrule, ih reply hnext⟩

/-- A stronger assumption and a weaker rule. -/
theorem Obeys.weaken {assume' rule' : Event ε → Prop} {prog : Prog ε α}
    (h : prog.Obeys assume rule post dir) (hassume : ∀ event, assume' event → assume event)
    (hrule : ∀ event, assume' event → rule event → rule' event) :
    prog.Obeys assume' rule' post dir := by
  induction prog generalizing dir with
  | done a => exact h
  | ask call next ih =>
      intro reply after hacts hassume'
      obtain ⟨hkept, hnext⟩ := h reply after hacts (hassume _ hassume')
      exact ⟨hrule _ hassume' hkept, ih reply hnext⟩

/-- Two facts about the same program. -/
theorem Obeys.and {rule' : Event ε → Prop} {prog : Prog ε α}
    (h : prog.Obeys assume rule post dir) (h' : prog.Obeys assume rule' post' dir) :
    prog.Obeys assume (fun event => rule event ∧ rule' event)
      (fun a after => post a after ∧ post' a after) dir := by
  induction prog generalizing dir with
  | done a => exact ⟨h, h'⟩
  | ask call next ih =>
      intro reply after hacts hassume
      obtain ⟨hrule, hnext⟩ := h reply after hacts hassume
      obtain ⟨hrule', hnext'⟩ := h' reply after hacts hassume
      exact ⟨⟨hrule, hrule'⟩, ih reply hnext hnext'⟩

theorem obeys_pure {a : α} (h : post a dir) : (pure a : Prog ε α).Obeys assume rule post dir := h

theorem obeys_bind {prog : Prog ε α} {next : α → Prog ε β} {last : β → Directory → Prop}
    (h : prog.Obeys assume rule (fun a after => (next a).Obeys assume rule last after) dir) :
    (prog >>= next).Obeys assume rule last dir := by
  induction prog generalizing dir with
  | done a => exact h
  | ask call rest ih =>
      intro reply after hacts hassume
      obtain ⟨hrule, hrest⟩ := h reply after hacts hassume
      exact ⟨hrule, ih reply hrest⟩

theorem obeys_issue {call : Call} {post : Except ε call.Reply → Directory → Prop}
    (h : ∀ reply after, Event.Acts ⟨dir, call, reply, after⟩ → assume ⟨dir, call, reply, after⟩ →
      rule ⟨dir, call, reply, after⟩ ∧ post reply after) :
    (issue call).Obeys assume rule post dir := h

/-- A run keeps the rule as long as it keeps the assumption, and if it ends it ends as
the postcondition says. -/
theorem Obeys.of_runs {prog rest : Prog ε α} {events : List (Event ε)} {last : Directory}
    (h : prog.Obeys assume rule post dir) (hruns : Runs prog dir events rest last)
    (hassume : ∀ event ∈ events, assume event) :
    (∀ event ∈ events, rule event) ∧ rest.Obeys assume rule post last := by
  induction hruns with
  | stop prog dir => exact ⟨fun event hevent => absurd hevent List.not_mem_nil, h⟩
  | step hacts hnext ih =>
      obtain ⟨hrule, hrest⟩ := h _ _ hacts (hassume _ List.mem_cons_self)
      obtain ⟨hevents, hlast⟩ := ih hrest fun event hevent =>
        hassume event (List.mem_cons_of_mem _ hevent)
      refine ⟨fun event hevent => ?_, hlast⟩
      rcases List.mem_cons.mp hevent with rfl | hevent
      · exact hrule
      · exact hevents event hevent

end Prog

/-! ## Runs without faults -/

/-- The call was carried out if it could be. -/
def Event.Sound (event : Event ε) : Prop :=
  ∀ reply after, event.call.perform event.before = some (reply, after) →
    event.reply = .ok reply ∧ event.after = after

/-- The run in which every call is carried out; one whose file is missing gives the error. -/
def Prog.run (missing : ε) : Prog ε α → Directory → α × Directory
  | .done a, dir => (a, dir)
  | .ask call next, dir =>
      match call.perform dir with
      | some (reply, after) => (next (.ok reply)).run missing after
      | none => (next (.error missing)).run missing dir

theorem Prog.Obeys.run {prog : Prog ε α} {assume rule : Event ε → Prop}
    {post : α → Directory → Prop} {dir : Directory} (h : prog.Obeys assume rule post dir)
    (missing : ε) (hassume : ∀ event : Event ε, event.Acts → event.Sound → assume event) :
    post (prog.run missing dir).1 (prog.run missing dir).2 := by
  induction prog generalizing dir with
  | done a => exact h
  | ask call next ih =>
      rw [Prog.run]
      cases hperform : call.perform dir with
      | none =>
          have hacts : Event.Acts (⟨dir, call, .error missing, dir⟩ : Event ε) :=
            .failed (.nothing call)
          have hsound : Event.Sound (⟨dir, call, .error missing, dir⟩ : Event ε) := by
            intro reply after hsome
            rw [hperform] at hsome
            cases hsome
          exact ih _ (h _ _ hacts (hassume _ hacts hsound)).2
      | some outcome =>
          obtain ⟨reply, after⟩ := outcome
          have hacts : Event.Acts (⟨dir, call, .ok reply, after⟩ : Event ε) := .done hperform
          have hsound : Event.Sound (⟨dir, call, .ok reply, after⟩ : Event ε) := by
            intro reply' after' hsome
            rw [hperform] at hsome
            obtain ⟨rfl, rfl⟩ := Prod.mk.inj (Option.some.inj hsome)
            exact ⟨rfl, rfl⟩
          exact ih _ (h _ _ hacts (hassume _ hacts hsound)).2

/-- The events of the run without faults. -/
def Prog.trace (missing : ε) : Prog ε α → Directory → List (Event ε)
  | .done _, _ => []
  | .ask call next, dir =>
      match call.perform dir with
      | some (reply, after) =>
          ⟨dir, call, .ok reply, after⟩ :: (next (.ok reply)).trace missing after
      | none => ⟨dir, call, .error missing, dir⟩ :: (next (.error missing)).trace missing dir

/-- The run without faults is a run. -/
theorem Prog.runs_trace (missing : ε) (prog : Prog ε α) (dir : Directory) :
    prog.Runs dir (prog.trace missing dir) (.done (prog.run missing dir).1)
      (prog.run missing dir).2 := by
  induction prog generalizing dir with
  | done a => exact .stop _ dir
  | ask call next ih =>
      rw [Prog.run, Prog.trace]
      cases hperform : call.perform dir with
      | none => exact .step (.failed (.nothing call)) (ih (.error missing) dir)
      | some outcome => exact .step (.done hperform) (ih (.ok outcome.1) outcome.2)

theorem Prog.runs_run (missing : ε) (prog : Prog ε α) (dir : Directory) :
    ∃ events, prog.Runs dir events (.done (prog.run missing dir).1) (prog.run missing dir).2 :=
  ⟨_, prog.runs_trace missing dir⟩

theorem Prog.sound_of_mem_trace (missing : ε) (prog : Prog ε α) (dir : Directory) :
    ∀ event ∈ prog.trace missing dir, event.Sound := by
  induction prog generalizing dir with
  | done a => exact fun event hevent => absurd hevent List.not_mem_nil
  | ask call next ih =>
      rw [Prog.trace]
      cases hperform : call.perform dir with
      | none =>
          intro event hevent
          rcases List.mem_cons.mp hevent with rfl | hevent
          · exact fun reply after hsome => nomatch hperform.symm.trans hsome
          · exact ih _ dir event hevent
      | some outcome =>
          intro event hevent
          rcases List.mem_cons.mp hevent with rfl | hevent
          · intro reply after hsome
            obtain ⟨rfl, rfl⟩ := Prod.mk.inj (Option.some.inj (hperform.symm.trans hsome))
            exact ⟨rfl, rfl⟩
          · exact ih _ outcome.2 event hevent

/-! ## Chains of events -/

/-- Events that follow each other and keep a rule. -/
inductive Chain (rule : Event ε → Prop) : Directory → List (Event ε) → Directory → Prop where
  | nil (dir : Directory) : Chain rule dir [] dir
  | cons {event : Event ε} {events : List (Event ε)} {last : Directory} (hacts : event.Acts)
      (hrule : rule event) (hrest : Chain rule event.after events last) :
      Chain rule event.before (event :: events) last

namespace Chain

variable {rule : Event ε → Prop} {first middle last : Directory} {events events' : List (Event ε)}

theorem append (h : Chain rule first events middle) (h' : Chain rule middle events' last) :
    Chain rule first (events ++ events') last := by
  induction h with
  | nil => exact h'
  | cons hacts hrule _ ih => exact .cons hacts hrule (ih h')

theorem of_cons {event : Event ε} (h : Chain rule first (event :: events) last) :
    event.Acts ∧ rule event ∧ Chain rule event.after events last := by
  cases h with
  | cons hacts hrule hrest => exact ⟨hacts, hrule, hrest⟩

theorem of_append (h : Chain rule first (events ++ events') last) :
    ∃ middle, Chain rule first events middle ∧ Chain rule middle events' last := by
  induction events generalizing first with
  | nil => exact ⟨first, .nil first, h⟩
  | cons event events ih =>
      cases h with
      | cons hacts hrule hrest =>
          obtain ⟨middle, hfirst, hlast⟩ := ih hrest
          exact ⟨middle, .cons hacts hrule hfirst, hlast⟩

/-- The events of a run are a chain. -/
theorem of_runs {prog rest : Prog ε α} (h : prog.Runs first events rest last)
    (hrule : ∀ event ∈ events, rule event) : Chain rule first events last := by
  induction h with
  | stop => exact .nil _
  | step hacts _ ih =>
      exact .cons hacts (hrule _ List.mem_cons_self)
        (ih fun event hevent => hrule event (List.mem_cons_of_mem _ hevent))

/-- An invariant that every event keeps. -/
theorem invariant (inv : List (Event ε) → Directory → Prop) (h : Chain rule first events last)
    (hstep : ∀ (past : List (Event ε)) (event : Event ε), event.Acts → rule event →
      inv past event.before → inv (past ++ [event]) event.after) (past : List (Event ε))
    (hfirst : inv past first) : inv (past ++ events) last := by
  induction h generalizing past with
  | nil =>
      rw [List.append_nil]
      exact hfirst
  | @cons event events last hacts hrule _ ih =>
      have hnext := ih _ (hstep past event hacts hrule hfirst)
      rwa [List.append_assoc, List.singleton_append] at hnext

end Chain

/-! ## A program beside others

Others may change the directory between two calls of a program.  A reader changes nothing
itself, so that the events of the others follow each other as if it were not there. -/

namespace Prog

/-- A program runs while others change the directory: its own events, and theirs. -/
inductive Beside : Prog ε α → Directory → List (Event ε) → List (Event ε) → Prog ε α → Directory →
    Prop where
  | stop (prog : Prog ε α) (dir : Directory) : Beside prog dir [] [] prog dir
  | own {call : Call} {next : Except ε call.Reply → Prog ε α} {reply : Except ε call.Reply}
      {dir after last : Directory} {own theirs : List (Event ε)} {rest : Prog ε α}
      (h : Event.Acts ⟨dir, call, reply, after⟩)
      (hnext : Beside (next reply) after own theirs rest last) :
      Beside (.ask call next) dir (⟨dir, call, reply, after⟩ :: own) theirs rest last
  | other {prog rest : Prog ε α} {event : Event ε} {own theirs : List (Event ε)} {last : Directory}
      (hnext : Beside prog event.after own theirs rest last) :
      Beside prog event.before own (event :: theirs) rest last

/-- A reader: it changes nothing, and wherever the directory goes between its calls, it ends as
the postcondition says as long as its events keep the assumption. -/
def Watches (assume : Event ε → Prop) : Prog ε α → (α → Prop) → Prop
  | .done a, post => post a
  | .ask call next, post => call.changes = [] ∧ ∀ dir reply, Event.Acts ⟨dir, call, reply, dir⟩ →
      assume ⟨dir, call, reply, dir⟩ → (next reply).Watches assume post

variable {assume rule : Event ε → Prop} {first last final : Directory}
  {own theirs : List (Event ε)}

theorem Watches.mono {post post' : α → Prop} {prog : Prog ε α} (h : prog.Watches assume post)
    (hpost : ∀ a, post a → post' a) : prog.Watches assume post' := by
  induction prog with
  | done a => exact hpost a h
  | ask call next ih => exact ⟨h.1, fun dir reply hacts hassume => ih reply (h.2 dir reply hacts hassume)⟩

theorem watches_bind {prog : Prog ε α} {next : α → Prog ε β} {post : β → Prop}
    (h : prog.Watches assume fun a => (next a).Watches assume post) :
    (prog >>= next).Watches assume post := by
  induction prog with
  | done a => exact h
  | ask call rest ih =>
      exact ⟨h.1, fun dir reply hacts hassume => ih reply (h.2 dir reply hacts hassume)⟩

/-- What holds of the directory while the others are at work may be assumed of the events of the
reader. -/
theorem Watches.of_beside {prog rest : Prog ε α} {post : α → Prop} (h : prog.Watches assume post)
    (hbeside : Beside prog first own theirs rest last) (hchain : Chain rule first theirs final)
    (inv : List (Event ε) → Directory → Prop)
    (hstep : ∀ (past : List (Event ε)) (event : Event ε), event.Acts → rule event →
      inv past event.before → inv (past ++ [event]) event.after)
    (hassume : ∀ past, ∀ event ∈ own, inv past event.before → assume event)
    (past : List (Event ε)) (hfirst : inv past first) : rest.Watches assume post := by
  induction hbeside generalizing past with
  | stop prog dir => exact h
  | @own call next reply dir after last own theirs rest hacts hnext ih =>
      have hafter : after = dir := hacts.after_eq h.1
      subst hafter
      refine ih (h.2 _ _ hacts (hassume past _ List.mem_cons_self hfirst)) hchain
        (fun past event hevent => hassume past event (List.mem_cons_of_mem _ hevent)) past hfirst
  | other hnext ih =>
      obtain ⟨hacts, hrule, hrest⟩ := hchain.of_cons
      exact ih h hrest hassume _ (hstep past _ hacts hrule hfirst)

/-- A reader that has ended has made its first call, somewhere among the events of the others. -/
theorem Beside.first_call {call : Call} {next : Except ε call.Reply → Prog ε α} {a : α}
    (h : Beside (.ask call next) first own theirs (.done a) last) (hcall : call.changes = [])
    (hchain : Chain rule first theirs final) :
    ∃ past future middle reply own', theirs = past ++ future ∧
      own = ⟨middle, call, reply, middle⟩ :: own' ∧ Chain rule first past middle ∧
        Chain rule middle future final ∧ Event.Acts ⟨middle, call, reply, middle⟩ ∧
          Beside (next reply) middle own' future (.done a) last := by
  generalize hprog : Prog.ask call next = prog at h
  generalize hrest : Prog.done a = rest at h
  induction h with
  | stop prog dir => cases hprog.trans hrest.symm
  | @own call next reply dir after last own theirs rest hacts hnext ih =>
      cases hprog
      cases hrest
      have hafter : after = dir := hacts.after_eq hcall
      subst hafter
      exact ⟨[], _, _, _, _, rfl, rfl, .nil _, hchain, hacts, hnext⟩
  | @other prog rest event own theirs last hnext ih =>
      obtain ⟨hevent, hrule, htheirs⟩ := hchain.of_cons
      obtain ⟨past, future, middle, reply, own', rfl, hown, hpast, hrun⟩ := ih htheirs hprog hrest
      exact ⟨event :: past, future, middle, reply, own', rfl, hown, .cons hevent hrule hpast, hrun⟩

/-- The others go first. -/
theorem Beside.others {prog rest : Prog ε α} {middle : Directory} (h : Chain rule first theirs middle)
    (hbeside : Beside prog middle own [] rest last) : Beside prog first own theirs rest last := by
  induction h with
  | nil dir => exact hbeside
  | cons hacts hrule hrest ih => exact .other (ih hbeside)

/-- What is left of a program after some calls without faults. -/
def drop (missing : ε) : ℕ → Prog ε α → Directory → Prog ε α
  | 0, prog, _ => prog
  | _ + 1, .done a, _ => .done a
  | n + 1, .ask call next, dir =>
      match call.perform dir with
      | some (reply, after) => (next (.ok reply)).drop missing n after
      | none => (next (.error missing)).drop missing n dir

section Reader

variable {prog : Prog ε α} {post : α → Prop}

/-- A reader alone, without faults. -/
theorem Watches.beside_run (h : prog.Watches (fun _ => True) post) (missing : ε) (dir : Directory) :
    Beside prog dir (prog.trace missing dir) [] (.done (prog.run missing dir).1) dir := by
  induction prog generalizing dir with
  | done a => exact .stop _ dir
  | ask call next ih =>
      rw [Prog.run, Prog.trace]
      cases hperform : call.perform dir with
      | none =>
          have hacts : Event.Acts (⟨dir, call, .error missing, dir⟩ : Event ε) :=
            .failed (.nothing call)
          exact .own hacts (ih _ (h.2 dir _ hacts True.intro) dir)
      | some outcome =>
          obtain ⟨reply, after⟩ := outcome
          have hacts : Event.Acts (⟨dir, call, .ok reply, after⟩ : Event ε) := .done hperform
          have hafter : after = dir := hacts.after_eq h.1
          subst hafter
          exact .own hacts (ih _ (h.2 after _ hacts True.intro) after)

/-- A reader that makes some calls before the others have their turn, and the rest behind them. -/
theorem Watches.beside (h : prog.Watches (fun _ => True) post) (missing : ε) (n : ℕ)
    (hchain : Chain rule first theirs last) :
    Beside prog first ((prog.trace missing first).take n ++
      (prog.drop missing n first).trace missing last) theirs
      (.done ((prog.drop missing n first).run missing last).1) last := by
  induction n generalizing prog with
  | zero => exact .others hchain (h.beside_run missing last)
  | succ n ih =>
      cases prog with
      | done a => exact .others hchain (.stop _ last)
      | ask call next =>
          rw [Prog.trace, drop]
          cases hperform : call.perform first with
          | none =>
              have hacts : Event.Acts (⟨first, call, .error missing, first⟩ : Event ε) :=
                .failed (.nothing call)
              exact .own hacts (ih (h.2 first _ hacts True.intro))
          | some outcome =>
              obtain ⟨reply, after⟩ := outcome
              have hacts : Event.Acts (⟨first, call, .ok reply, after⟩ : Event ε) := .done hperform
              have hafter : after = first := hacts.after_eq h.1
              subst hafter
              exact .own hacts (ih (h.2 after _ hacts True.intro))

end Reader

end Prog

end Programs

/-! ## Actions

Programs that may fail, and methods of an object that keeps its changes when they
fail. -/

variable {ε σ φ α β : Type}

/-- A program that may fail. -/
abbrev Action (ε φ α : Type) := ExceptT φ (Prog ε) α

/-- A method of an object with a state. -/
abbrev Method (ε σ φ α : Type) := ExceptT φ (StateT σ (Prog ε)) α

namespace Action

/-- A call whose failure is the program's. -/
def call (wrap : ε → φ) (call : Call) : Action ε φ call.Reply :=
  ExceptT.mk ((·.mapError wrap) <$> Prog.issue call)

/-- A call whose outcome does not matter. -/
def attempt (call : Call) : Action ε φ Unit :=
  ExceptT.mk ((fun _ => .ok ()) <$> Prog.issue call)

/-- A computation without calls. -/
def lift (result : Except φ α) : Action ε φ α := ExceptT.mk (pure result)

/-- What the action does, then what is done whether it failed or not. -/
def andFinally (action : Action ε φ α) (cleanup : Action ε φ Unit) : Action ε φ α :=
  ExceptT.mk do
    let result ← action.run
    let _ ← cleanup.run
    pure result

section Logic

variable {assume rule : Event ε → Prop} {dir : Directory}

theorem obeys_pure {a : α} {post : Except φ α → Directory → Prop} (h : post (.ok a) dir) :
    (pure a : Action ε φ α).run.Obeys assume rule post dir := h

theorem obeys_lift {result : Except φ α} {post : Except φ α → Directory → Prop}
    (h : post result dir) : (lift result : Action ε φ α).run.Obeys assume rule post dir := h

theorem obeys_bind {action : Action ε φ α} {next : α → Action ε φ β}
    {post : Except φ β → Directory → Prop}
    (h : action.run.Obeys assume rule (fun result after => match result with
      | .ok a => (next a).run.Obeys assume rule post after
      | .error e => post (.error e) after) dir) :
    (action >>= next).run.Obeys assume rule post dir := by
  refine Prog.obeys_bind (h.mono fun result after hresult => ?_)
  cases result with
  | ok a => exact hresult
  | error e => exact hresult

theorem obeys_call {wrap : ε → φ} {request : Call}
    {post : Except φ request.Reply → Directory → Prop}
    (h : ∀ reply after, Event.Acts ⟨dir, request, reply, after⟩ →
      assume ⟨dir, request, reply, after⟩ →
        rule ⟨dir, request, reply, after⟩ ∧ post (reply.mapError wrap) after) :
    (call wrap request : Action ε φ _).run.Obeys assume rule post dir := h

theorem obeys_attempt {request : Call} {post : Except φ Unit → Directory → Prop}
    (h : ∀ reply after, Event.Acts ⟨dir, request, reply, after⟩ →
      assume ⟨dir, request, reply, after⟩ →
        rule ⟨dir, request, reply, after⟩ ∧ post (.ok ()) after) :
    (attempt request : Action ε φ _).run.Obeys assume rule post dir := h

theorem obeys_andFinally {action : Action ε φ α} {cleanup : Action ε φ Unit}
    {post : Except φ α → Directory → Prop}
    (h : action.run.Obeys assume rule (fun result after =>
      cleanup.run.Obeys assume rule (fun _ => post result) after) dir) :
    (andFinally action cleanup).run.Obeys assume rule post dir :=
  Prog.obeys_bind (h.mono fun _ _ hcleanup => Prog.obeys_bind hcleanup)

/-- A loop that keeps an invariant, or fails. -/
theorem obeys_foldlM {f : σ → α → Action ε φ σ} {inv : σ → Directory → Prop}
    {failed : φ → Directory → Prop} (as : List α)
    (h : ∀ s, ∀ a ∈ as, ∀ dir, inv s dir →
      (f s a).run.Obeys assume rule (fun result after => match result with
        | .ok s' => inv s' after
        | .error e => failed e after) dir)
    {s : σ} (hinv : inv s dir) :
    (as.foldlM f s).run.Obeys assume rule (fun result after => match result with
      | .ok s' => inv s' after
      | .error e => failed e after) dir := by
  induction as generalizing s dir with
  | nil => exact hinv
  | cons a as ih =>
      rw [List.foldlM_cons]
      refine obeys_bind ((h s a List.mem_cons_self dir hinv).mono fun result after hresult => ?_)
      cases result with
      | ok s' => exact ih (fun s a ha => h s a (List.mem_cons_of_mem _ ha)) hresult
      | error e => exact hresult

end Logic

/-- A reader that ends with a value of the first kind, or a failure of the second. -/
def Watches (assume : Event ε → Prop) (action : Action ε φ α) (ok : α → Prop) (failed : φ → Prop) :
    Prop :=
  action.run.Watches assume fun result => match result with
    | .ok a => ok a
    | .error e => failed e

section Watching

variable {assume : Event ε → Prop} {ok : α → Prop} {failed : φ → Prop}

theorem Watches.mono {action : Action ε φ α} {ok' : α → Prop} (h : Watches assume action ok failed)
    (hok : ∀ a, ok a → ok' a) : Watches assume action ok' failed := by
  refine Prog.Watches.mono h fun result hresult => ?_
  cases result with
  | ok a => exact hok a hresult
  | error e => exact hresult

theorem watches_pure {a : α} (h : ok a) : Watches assume (pure a : Action ε φ α) ok failed := h

theorem watches_lift {result : Except φ α} (hok : ∀ a, result = .ok a → ok a)
    (hfailed : ∀ e, result = .error e → failed e) :
    Watches assume (lift result : Action ε φ α) ok failed := by
  cases result with
  | ok a => exact hok a rfl
  | error e => exact hfailed e rfl

theorem watches_bind {action : Action ε φ α} {next : α → Action ε φ β} {done : β → Prop}
    (h : Watches assume action (fun a => Watches assume (next a) done failed) failed) :
    Watches assume (action >>= next) done failed := by
  refine Prog.watches_bind (Prog.Watches.mono h fun result hresult => ?_)
  cases result with
  | ok a => exact hresult
  | error e => exact hresult

theorem watches_call {wrap : ε → φ} {request : Call} {ok : request.Reply → Prop}
    (hcall : request.changes = [])
    (hok : ∀ dir reply, (⟨dir, request, .ok reply, dir⟩ : Event ε).Acts →
      assume ⟨dir, request, .ok reply, dir⟩ → ok reply)
    (hfailed : ∀ e, failed (wrap e)) : Watches assume (call wrap request) ok failed := by
  refine ⟨hcall, fun dir reply hacts hassume => ?_⟩
  cases reply with
  | ok reply => exact hok dir reply hacts hassume
  | error e => exact hfailed e

end Watching

end Action

namespace Method

/-- An action as a step of a method. -/
def liftAction (action : Action ε φ α) : Method ε σ φ α :=
  ExceptT.mk fun s => (fun result => (result, s)) <$> action.run

/-- A method whose failure is a value. -/
def attempt (method : Method ε σ φ α) : Method ε σ φ (Except φ α) :=
  ExceptT.mk (.ok <$> method.run)

/-- Under the assumption the method keeps the rule and ends as the postcondition says. -/
def Obeys (assume rule : Event ε → Prop) (method : Method ε σ φ α)
    (post : Except φ α → σ → Directory → Prop) (s : σ) (dir : Directory) : Prop :=
  (method.run.run s).Obeys assume rule (fun out after => post out.1 out.2 after) dir

section Logic

variable {assume rule : Event ε → Prop} {s : σ} {dir : Directory}
  {post post' : Except φ α → σ → Directory → Prop}

theorem Obeys.mono {method : Method ε σ φ α} (h : method.Obeys assume rule post s dir)
    (hpost : ∀ result s' after, post result s' after → post' result s' after) :
    method.Obeys assume rule post' s dir :=
  Prog.Obeys.mono h fun out after hout => hpost out.1 out.2 after hout

theorem obeys_pure {a : α} (h : post (.ok a) s dir) :
    Obeys assume rule (pure a : Method ε σ φ α) post s dir := h

theorem obeys_throw {e : φ} (h : post (.error e) s dir) :
    Obeys assume rule (throw e : Method ε σ φ α) post s dir := h

theorem obeys_bind {method : Method ε σ φ α} {next : α → Method ε σ φ β}
    {last : Except φ β → σ → Directory → Prop}
    (h : method.Obeys assume rule (fun result s' after => match result with
      | .ok a => (next a).Obeys assume rule last s' after
      | .error e => last (.error e) s' after) s dir) :
    (method >>= next).Obeys assume rule last s dir := by
  refine Prog.obeys_bind (Prog.Obeys.mono h fun out after hout => ?_)
  obtain ⟨result, s'⟩ := out
  cases result with
  | ok a => exact hout
  | error e => exact hout

theorem obeys_map {method : Method ε σ φ α} {f : α → β} {last : Except φ β → σ → Directory → Prop}
    (h : method.Obeys assume rule (fun result s' after => last (f <$> result) s' after) s dir) :
    Obeys assume rule (f <$> method) last s dir := by
  rw [← bind_pure_comp]
  refine obeys_bind (h.mono fun result s' after hresult => ?_)
  cases result with
  | ok a => exact hresult
  | error e => exact hresult

theorem obeys_modify {f : σ → σ} {post : Except φ PUnit → σ → Directory → Prop}
    (h : post (.ok ⟨⟩) (f s) dir) : Obeys assume rule (modify f : Method ε σ φ PUnit) post s dir := h

theorem obeys_get_bind {next : σ → Method ε σ φ β} {last : Except φ β → σ → Directory → Prop}
    (h : (next s).Obeys assume rule last s dir) : Obeys assume rule (get >>= next) last s dir := h

theorem obeys_modify_bind {f : σ → σ} {next : PUnit → Method ε σ φ β}
    {last : Except φ β → σ → Directory → Prop} (h : (next ⟨⟩).Obeys assume rule last (f s) dir) :
    Obeys assume rule (modify f >>= next) last s dir := h

theorem obeys_attempt {method : Method ε σ φ α}
    {post : Except φ (Except φ α) → σ → Directory → Prop}
    (h : method.Obeys assume rule (fun result s' after => post (.ok result) s' after) s dir) :
    Obeys assume rule (attempt method) post s dir :=
  Prog.obeys_bind h

/-- A loop that keeps an invariant, or fails. -/
theorem obeys_foldlM {f : β → α → Method ε σ φ β} {inv : β → σ → Directory → Prop}
    {failed : φ → σ → Directory → Prop} (as : List α)
    (h : ∀ b, ∀ a ∈ as, ∀ s dir, inv b s dir →
      (f b a).Obeys assume rule (fun result s' after => match result with
        | .ok b' => inv b' s' after
        | .error e => failed e s' after) s dir)
    {b : β} {s : σ} {dir : Directory} (hinv : inv b s dir) :
    Obeys assume rule (as.foldlM f b) (fun result s' after => match result with
      | .ok b' => inv b' s' after
      | .error e => failed e s' after) s dir := by
  induction as generalizing b s dir with
  | nil => exact hinv
  | cons a as ih =>
      rw [List.foldlM_cons]
      refine obeys_bind ((h b a List.mem_cons_self s dir hinv).mono fun result s' after hresult => ?_)
      cases result with
      | ok b' => exact ih (fun b a ha => h b a (List.mem_cons_of_mem _ ha)) hresult
      | error e => exact hresult

theorem obeys_liftAction {action : Action ε φ α}
    (h : action.run.Obeys assume rule (fun result after => post result s after) dir) :
    Obeys assume rule (liftAction action) post s dir :=
  Prog.obeys_bind h

end Logic

end Method

end FileProgram
