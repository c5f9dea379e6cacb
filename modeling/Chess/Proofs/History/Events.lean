import Chess.Proofs.History.Triple
import Chess.Proofs.Quiet

namespace Chess

/-! Board events. The operations on a history add to the journal as they run; the board events
among the entries they add are what a watcher of the history's board sees. `Fires act h Q`
says that from the history `h`, whatever the journal so far, `act` adds entries to it and ends
with a result, a history and the events of the entries it added satisfying `Q`. The rules below
take an operation apart along its `do` block, as those of `Triple` do, and put the events of
its steps together in order. -/

def Entry.event? : Entry → Option BoardEvent
  | .record _ _ => none
  | .event e => some e

def events (extra : Array Entry) : List BoardEvent := extra.toList.filterMap Entry.event?

@[simp] theorem events_empty : events #[] = [] := rfl

@[simp] theorem events_append (x y : Array Entry) : events (x ++ y) = events x ++ events y := by
  simp [events]

@[simp] theorem events_event (e : BoardEvent) : events #[.event e] = [e] := rfl

theorem Silent.events_eq_nil {extra : Array Entry} (silent : Silent extra) : events extra = [] := by
  simp only [events, List.filterMap_eq_nil_iff]
  intro entry member
  cases entry with
  | record => rfl
  | event e => exact absurd (Array.mem_toList_iff.mp member) (silent e)

namespace History

variable {α β : Type}

/-- From `h`, with any journal, `act` adds entries to the journal, and its result, the history it
leaves and the events of the entries it added satisfy `Q`. -/
def Fires (act : HistoryM α) (h : History) (Q : Except MoveError α → History → List BoardEvent → Prop) :
    Prop :=
  ∀ j, ∃ extra, ((act.run.run h).run j).2 = j ++ extra ∧
    Q ((act.run.run h).run j).1.1 ((act.run.run h).run j).1.2 (events extra)

variable {h : History} {Q Q' R : Except MoveError α → History → List BoardEvent → Prop}
  {S : Except MoveError β → History → List BoardEvent → Prop}

theorem Fires.mono {act : HistoryM α} (fires : Fires act h Q) (post : ∀ r h' e, Q r h' e → Q' r h' e) :
    Fires act h Q' := fun j => by
  obtain ⟨extra, journal, done⟩ := fires j
  exact ⟨extra, journal, post _ _ _ done⟩

theorem Fires.triple {act : HistoryM α} (fires : Fires act h Q) :
    Triple (· = h) act fun r h' => ∃ e, Q r h' e := fun _ j start => by
  subst start
  obtain ⟨extra, -, post⟩ := fires j
  exact ⟨_, post⟩

theorem fires_pure (a : α) (post : Q (.ok a) h []) : Fires (pure a) h Q :=
  fun _ => ⟨#[], Array.append_empty.symm, post⟩

theorem fires_throw (e : MoveError) (post : Q (.error e) h []) : Fires (throw e) h Q :=
  fun _ => ⟨#[], Array.append_empty.symm, post⟩

theorem fires_get_bind {f : History → HistoryM β} (rest : Fires (f h) h S) : Fires (get >>= f) h S :=
  rest

theorem fires_set (s : History) {Q : Except MoveError PUnit → History → List BoardEvent → Prop}
    (post : Q (.ok ⟨⟩) s []) : Fires (set s) h Q :=
  fun _ => ⟨#[], Array.append_empty.symm, post⟩

theorem fires_set_bind (s : History) {f : PUnit → HistoryM β} (rest : Fires (f ⟨⟩) s S) :
    Fires (set s >>= f) h S :=
  rest

theorem Fires.bind {x : HistoryM α} {f : α → HistoryM β} (first : Fires x h R)
    (rest : ∀ a h' e, R (.ok a) h' e → Fires (f a) h' fun r h'' e' => S r h'' (e ++ e'))
    (failed : ∀ err h' e, R (.error err) h' e → S (.error err) h' e) : Fires (x >>= f) h S := by
  intro j
  obtain ⟨extra, journal, mid⟩ := first j
  rw [run_bind]
  generalize (x.run.run h).run j = out at journal mid
  obtain ⟨⟨r, h'⟩, j'⟩ := out
  dsimp only at journal mid ⊢
  subst journal
  cases r with
  | error err => exact ⟨extra, rfl, failed err h' _ mid⟩
  | ok a =>
    obtain ⟨extra', journal', done⟩ := rest a h' _ mid (j ++ extra)
    refine ⟨extra ++ extra', by rw [journal', Array.append_assoc], ?_⟩
    rw [events_append]
    exact done

theorem fires_journal_bind {act : Noted α} {v : α} {f : α → HistoryM β} (records : act.Records)
    (value : ∀ j, (act.run j).1 = v) (rest : Fires (f v) h S) : Fires (journal act >>= f) h S := by
  intro j
  obtain ⟨extra, journal, silent⟩ := records j
  obtain ⟨extra', journal', done⟩ := rest (j ++ extra)
  refine ⟨extra ++ extra', ?_, ?_⟩
  · show (((f (act.run j).1).run.run h).run (act.run j).2).2 = _
    rw [value, journal, journal', Array.append_assoc]
  · show S (((f (act.run j).1).run.run h).run (act.run j).2).1.1
      (((f (act.run j).1).run.run h).run (act.run j).2).1.2 _
    rw [value, journal, events_append, silent.events_eq_nil, List.nil_append]
    exact done

theorem fires_announce_bind (ev : BoardEvent) {f : PUnit → HistoryM β}
    (rest : Fires (f ⟨⟩) h fun r h' e => S r h' (ev :: e)) :
    Fires (journal (Noted.add (.event ev)) >>= f) h S := by
  intro j
  obtain ⟨extra, journal, done⟩ := rest (j.push (.event ev))
  refine ⟨#[.event ev] ++ extra, ?_, ?_⟩
  · show (((f ⟨⟩).run.run h).run (j.push (.event ev))).2 = _
    rw [journal, Array.push_eq_append, Array.append_assoc]
  · rw [events_append, events_event]
    exact done

theorem fires_announce (ev : BoardEvent) {Q : Except MoveError PUnit → History → List BoardEvent → Prop}
    (post : Q (.ok ⟨⟩) h [ev]) : Fires (journal (Noted.add (.event ev))) h Q :=
  fun _ => ⟨#[.event ev], Array.push_eq_append, post⟩

theorem run_tryFinally (x : HistoryM α) (e : Entry) (j : Array Entry) :
    ((tryFinally x (journal (Noted.add e))).run.run h).run j =
      (((x.run.run h).run j).1, ((x.run.run h).run j).2.push e) := by
  rcases outcome : ((x.run.run h).run j) with ⟨⟨r, h'⟩, j'⟩
  simp only [tryFinally, MonadFinally.tryFinally', ExceptT.run, StateT.run] at outcome ⊢
  simp only [ExceptT.mk, ExceptT.map, Functor.map, bind, StateT.bind, pure, outcome]
  cases r <;> rfl

theorem Fires.tryFinally {x : HistoryM α} (ev : BoardEvent)
    (body : Fires x h fun r h' e => Q r h' (e ++ [ev])) :
    Fires (tryFinally x (journal (Noted.add (.event ev)))) h Q := by
  intro j
  obtain ⟨extra, journal, done⟩ := body j
  refine ⟨extra.push (.event ev), ?_, ?_⟩
  · rw [run_tryFinally, journal, Array.push_eq_append, Array.push_eq_append, Array.append_assoc]
  · rw [run_tryFinally, Array.push_eq_append, Array.push_eq_append, events_append, events_event]
    exact done

theorem Fires.discard {x : HistoryM α} {Q : Except MoveError PUnit → History → List BoardEvent → Prop}
    (fires : Fires x h R) (done : ∀ a h' e, R (.ok a) h' e → Q (.ok ⟨⟩) h' e)
    (failed : ∀ err h' e, R (.error err) h' e → Q (.error err) h' e) : Fires (discard x) h Q := by
  intro j
  obtain ⟨extra, journal, post⟩ := fires j
  refine ⟨extra, ?_, ?_⟩
  all_goals
    simp only [Functor.discard, Functor.mapConst, Function.comp, ExceptT.map,
      ExceptT.run_mk, StateT.run_bind]
    simp only [ExceptT.run] at journal post ⊢
    generalize StateT.run (StateT.run x h) j = out at journal post ⊢
    obtain ⟨⟨r, h'⟩, j'⟩ := out
  · cases r <;> exact journal
  · cases r with
    | error err => exact failed err h' _ post
    | ok a => exact done a h' _ post

theorem fires_forIn_yield {ρ : Type} (I : List ρ → History → Prop) (ev : BoardEvent)
    (body : ρ → HistoryM PUnit)
    (pass : ∀ x rest h, I (x :: rest) h →
      Fires (body x) h fun r h' e => r = .ok ⟨⟩ ∧ e = [ev] ∧ I rest h') :
    ∀ (xs : List ρ) (h : History), I xs h →
      Fires (forIn xs PUnit.unit fun x _ => do body x; pure (ForInStep.yield PUnit.unit) : HistoryM PUnit)
        h fun r h' e => r = .ok ⟨⟩ ∧ e = List.replicate xs.length ev ∧ I [] h'
  | [], _, start => fires_pure _ ⟨rfl, rfl, start⟩
  | x :: rest, h, start => by
    rw [List.forIn_cons]
    have once : Fires (do body x; pure (ForInStep.yield PUnit.unit)) h fun r h' e =>
        r = .ok (.yield ⟨⟩) ∧ e = [ev] ∧ I rest h' :=
      (pass x rest h start).bind
        (fun _ h' e post => fires_pure _ ⟨rfl, by rw [List.append_nil, post.2.1], post.2.2⟩)
        fun _ _ _ post => absurd post.1 (by simp)
    refine once.bind (fun step h' e post => ?_) fun _ _ _ post => absurd post.1 (by simp)
    obtain ⟨ok, fired, kept⟩ := post
    cases Except.ok.inj ok
    refine (fires_forIn_yield I ev body pass rest h' kept).mono fun r h'' e' after => ?_
    refine ⟨after.1, ?_, after.2.2⟩
    rw [fired, after.2.1, List.length_cons, List.replicate_succ, List.singleton_append]

/-- A loop that runs until a pass says to stop. The work left is a list, one item per pass that
goes on; while it is shorter than the items, each pass that goes on fires one event, the pass
that finds no work left stops, and the loop ends where the work is done. -/
theorem fires_forIn_until {ρ τ : Type} (I : List τ → History → Prop) (ev : BoardEvent)
    (f : ρ → PUnit → HistoryM (ForInStep PUnit))
    (stop : ∀ x h, I [] h → Fires (f x ⟨⟩) h fun r h' e => r = .ok (.done ⟨⟩) ∧ e = [] ∧ I [] h')
    (go : ∀ x t work h, I (t :: work) h →
      Fires (f x ⟨⟩) h fun r h' e => r = .ok (.yield ⟨⟩) ∧ e = [ev] ∧ I work h') :
    ∀ (xs : List ρ) (work : List τ) (h : History), I work h → work.length < xs.length →
      Fires (forIn xs PUnit.unit f) h fun r h' e =>
        r = .ok ⟨⟩ ∧ e = List.replicate work.length ev ∧ I [] h'
  | [], _, _, _, short => absurd short (Nat.not_lt_zero _)
  | x :: xs, work, h, inv, short => by
    rw [List.forIn_cons]
    cases work with
    | nil =>
      refine (stop x h inv).bind (fun step h' e post => ?_) fun _ _ _ post => absurd post.1 (by simp)
      obtain ⟨ok, fired, kept⟩ := post
      cases Except.ok.inj ok
      exact fires_pure _ ⟨rfl, by rw [fired]; rfl, kept⟩
    | cons t work =>
      refine (go x t work h inv).bind (fun step h' e post => ?_) fun _ _ _ post => absurd post.1 (by simp)
      obtain ⟨ok, fired, kept⟩ := post
      cases Except.ok.inj ok
      refine (fires_forIn_until I ev f stop go xs work h' kept (by simpa using short)).mono
        fun r h'' e' after => ⟨after.1, ?_, after.2.2⟩
      rw [fired, after.2.1, List.length_cons, List.replicate_succ, List.singleton_append]

end History

end Chess
