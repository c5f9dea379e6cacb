import Chess.History.Play

namespace Chess

namespace History

/-! Specifications of the operations on a history. An operation runs on the history as state
and on a journal; it may fail, keeping the history it reached. A triple `Triple P act Q`
says that from every history satisfying `P`, whatever the journal so far, `act` ends with a
result and a history satisfying `Q`, a failure included. The rules below take an operation
apart along its `do` block, so that each operation's specification follows its text. -/

variable {α β : Type}

/-- From every history satisfying `P`, with any journal, `act` ends in a result and a history
satisfying `Q`. -/
def Triple (P : History → Prop) (act : HistoryM α) (Q : Except MoveError α → History → Prop) :
    Prop :=
  ∀ h j, P h → Q ((act.run.run h).run j).1.1 ((act.run.run h).run j).1.2

variable {P P' : History → Prop} {Q Q' : Except MoveError α → History → Prop}

theorem Triple.mono {act : HistoryM α} (spec : Triple P act Q) (pre : ∀ h, P' h → P h)
    (post : ∀ r h, Q r h → Q' r h) : Triple P' act Q' :=
  fun h j start => post _ _ (spec h j (pre h start))

theorem triple_pure (a : α) (post : ∀ h, P h → Q (.ok a) h) : Triple P (pure a) Q :=
  fun h _ start => post h start

theorem triple_get {Q : Except MoveError History → History → Prop} (post : ∀ h, P h → Q (.ok h) h) :
    Triple P get Q :=
  fun h _ start => post h start

theorem triple_set (s : History) {Q : Except MoveError PUnit → History → Prop}
    (post : ∀ h, P h → Q (.ok ⟨⟩) s) : Triple P (set s) Q :=
  fun h _ start => post h start

theorem triple_throw (e : MoveError) (post : ∀ h, P h → Q (.error e) h) : Triple P (throw e) Q :=
  fun h _ start => post h start

theorem triple_journal (act : Noted α) (post : ∀ h, P h → ∀ j, Q (.ok (act.run j).1) h) :
    Triple P (journal act) Q :=
  fun h j start => post h start j

theorem Triple.bind {R : Except MoveError α → History → Prop} {Q : Except MoveError β → History → Prop}
    {x : HistoryM α} {f : α → HistoryM β} (first : Triple P x R)
    (rest : ∀ a, Triple (R (.ok a)) (f a) Q) (failed : ∀ e h, R (.error e) h → Q (.error e) h) :
    Triple P (x >>= f) Q := by
  intro h j start
  have mid := first h j start
  simp only [ExceptT.run_bind, StateT.run_bind]
  generalize ((x.run.run h).run j) = out at mid ⊢
  obtain ⟨⟨r, h'⟩, j'⟩ := out
  cases r with
  | error e => exact failed e h' mid
  | ok a => exact rest a h' j' mid

theorem Triple.discard {R : Except MoveError α → History → Prop} {Q : Except MoveError PUnit → History → Prop}
    {x : HistoryM α} (spec : Triple P x R) (done : ∀ a h, R (.ok a) h → Q (.ok ⟨⟩) h)
    (failed : ∀ e h, R (.error e) h → Q (.error e) h) : Triple P (discard x) Q := by
  intro h j start
  have post := spec h j start
  simp only [Functor.discard, Functor.mapConst, Function.comp, ExceptT.map,
    ExceptT.run_mk, StateT.run_bind]
  simp only [ExceptT.run] at post ⊢
  generalize StateT.run (StateT.run x h) j = out at post ⊢
  obtain ⟨⟨r, h'⟩, j'⟩ := out
  cases r with
  | error e => exact failed e h' post
  | ok a => exact done a h' post

/-- A loop over a list, with an invariant on the items still to come: each pass from the
invariant at `x :: rest` reaches it at `rest` when it goes on, and the postcondition when it
stops or fails; past the last item the invariant gives the postcondition. -/
theorem triple_forIn {ρ : Type} (I : List ρ → History → Prop) {Q : Except MoveError PUnit → History → Prop}
    (xs : List ρ) (f : ρ → PUnit → HistoryM (ForInStep PUnit))
    (pass : ∀ x rest, Triple (I (x :: rest)) (f x ⟨⟩) fun r h =>
      (r = .ok (.yield ⟨⟩) → I rest h) ∧ (r = .ok (.done ⟨⟩) → Q (.ok ⟨⟩) h) ∧
        ∀ e, r = .error e → Q (.error e) h)
    (finish : ∀ h, I [] h → Q (.ok ⟨⟩) h) : Triple (I xs) (forIn xs ⟨⟩ f) Q := by
  induction xs with
  | nil => exact triple_pure _ finish
  | cons x rest ih =>
    rw [List.forIn_cons]
    refine (pass x rest).bind (fun step => ?_) fun e h post => post.2.2 e rfl
    cases step with
    | done u => exact triple_pure _ fun h post => post.2.1 rfl
    | yield u => exact ih.mono (fun h post => post.1 rfl) fun _ _ post => post

theorem triple_tryFinally {x : HistoryM α} (body : Triple P x Q) (e : Entry) :
    Triple P (tryFinally x (journal (Noted.add e))) Q := by
  intro h j start
  have post := body h j start
  rcases outcome : ((x.run.run h).run j) with ⟨⟨r, h'⟩, j'⟩
  rw [outcome] at post
  simp only [tryFinally, MonadFinally.tryFinally', ExceptT.run, StateT.run] at outcome ⊢
  simp only [ExceptT.mk, ExceptT.map, Functor.map, bind, StateT.bind, pure, outcome]
  cases r <;> exact post

end History

end Chess
