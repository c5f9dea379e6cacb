import Chess.Proofs.Notation.ReadBack

namespace Chess

/-! Refusals that change nothing. The library's stateful operations run on a state with a
journal and may fail. An operation is quiet from a state when it keeps that state and adds
records only to the journal, no board event; it refuses cleanly when each of its failures is
quiet. Reading the state, checks that only fail, and journal steps that add records are quiet;
a quiet step followed by a clean refusal refuses cleanly, and so does a clean refusal followed
by steps that cannot fail. -/

def Silent (extra : Array Entry) : Prop := ∀ e, Entry.event e ∉ extra

theorem silent_empty : Silent #[] := fun _ => by simp

theorem silent_record (level : Level) (text : String) : Silent #[.record level text] :=
  fun _ => by simp

theorem Silent.append {x y : Array Entry} (first : Silent x) (second : Silent y) :
    Silent (x ++ y) := fun e member => by
  rcases Array.mem_append.mp member with inX | inY
  · exact first e inX
  · exact second e inY

def Noted.Records {α : Type} (act : Noted α) : Prop :=
  ∀ j, ∃ extra, (act.run j).2 = j ++ extra ∧ Silent extra

namespace Noted

variable {α β : Type}

theorem records_pure (a : α) : Records (pure a : Noted α) :=
  fun _ => ⟨#[], Array.append_empty.symm, silent_empty⟩

theorem records_log (level : Level) (text : String) : Records (Noted.log level text) :=
  fun _ => ⟨#[.record level text], Array.push_eq_append, silent_record level text⟩

theorem Records.bind {x : Noted α} {f : α → Noted β} (first : Records x)
    (rest : ∀ a, Records (f a)) : Records (x >>= f) := fun j => by
  obtain ⟨extra, journal, silent⟩ := first j
  obtain ⟨extra', journal', silent'⟩ := rest (x.run j).1 (x.run j).2
  refine ⟨extra ++ extra', ?_, silent.append silent'⟩
  rw [Noted.run_bind, journal', journal, Array.append_assoc]

theorem records_regenerated (b : Board) : Records (Noted.regenerated b) := by
  unfold Noted.regenerated
  split
  · exact records_log _ _
  · exact records_pure _

end Noted

namespace Move

theorem records_executeNoted (m : Move) (b : Board) : (m.executeNoted b).Records := by
  unfold executeNoted
  split
  · exact (Noted.records_regenerated _).bind fun _ =>
      (Noted.records_log _ _).bind fun _ => Noted.records_pure _
  · exact Noted.records_pure _

theorem records_unexecuteNoted (m : Move) (b : Board) : (m.unexecuteNoted b).Records := by
  unfold unexecuteNoted
  split
  · exact (Noted.records_regenerated _).bind fun _ =>
      (Noted.records_log _ _).bind fun _ => Noted.records_pure _
  · exact Noted.records_pure _

theorem records_rehearseNoted (m : Move) (b : Board) : (m.rehearseNoted b).Records := by
  unfold rehearseNoted
  refine (records_executeNoted m b).bind fun r => ?_
  split
  · refine (records_unexecuteNoted _ _).bind fun t => ?_
    split
    · exact Noted.records_pure _
    · exact Noted.records_pure _
  · exact Noted.records_pure _

theorem records_newNoted (b : Board) (origin target : Square) (promotion : Option PieceKind) :
    (newNoted b origin target promotion).Records := by
  unfold newNoted
  split
  · exact records_rehearseNoted _ _
  · exact Noted.records_pure _

theorem records_castleOnNoted (b : Board) (side : CastleSide) : (castleOnNoted b side).Records := by
  unfold castleOnNoted
  dsimp only
  split
  · exact Noted.records_pure _
  · split
    · exact Noted.records_pure _
    · exact records_rehearseNoted _ _

end Move

theorem San.records_parseNoted (b : Board) (text : String) : (San.parseNoted b text).Records := by
  unfold San.parseNoted
  dsimp only
  split
  · exact Noted.records_pure _
  · exact Move.records_castleOnNoted _ _
  · split
    · exact Noted.records_pure _
    · split
      · exact Noted.records_pure _
      · split
        · exact Move.records_newNoted _ _ _ _
        · exact Noted.records_pure _

theorem Uci.records_parseNoted (b : Board) (text : String) : (Uci.parseNoted b text).Records := by
  unfold Uci.parseNoted
  dsimp only
  split
  · exact Noted.records_pure _
  · split
    · split
      · exact Move.records_newNoted _ _ _ _
      · split
        · exact Move.records_newNoted _ _ _ _
        · exact Noted.records_pure _
    · exact Noted.records_pure _

section Refusal

variable {ε σ α β : Type}

def Quiet (act : ExceptT ε (StateT σ Noted) α) (s : σ) : Prop :=
  ∀ j, ((act.run.run s).run j).1.2 = s ∧
    ∃ extra, ((act.run.run s).run j).2 = j ++ extra ∧ Silent extra

/-- `act` refuses cleanly from `s`: whenever it fails, it ends in `s` again, adding records only
to the journal. -/
def Refuses (act : ExceptT ε (StateT σ Noted) α) (s : σ) : Prop :=
  ∀ j e, ((act.run.run s).run j).1.1 = .error e →
    ((act.run.run s).run j).1.2 = s ∧
      ∃ extra, ((act.run.run s).run j).2 = j ++ extra ∧ Silent extra

theorem run_bind (x : ExceptT ε (StateT σ Noted) α) (f : α → ExceptT ε (StateT σ Noted) β)
    (s : σ) (j : Array Entry) :
    ((x >>= f).run.run s).run j = match (x.run.run s).run j with
      | ((.ok a, s'), j') => ((f a).run.run s').run j'
      | ((.error e, s'), j') => ((.error e, s'), j') := by
  simp only [ExceptT.run_bind, StateT.run_bind]
  generalize (x.run.run s).run j = out
  obtain ⟨⟨r, s'⟩, j'⟩ := out
  cases r <;> rfl

theorem Quiet.refuses {act : ExceptT ε (StateT σ Noted) α} {s : σ} (quiet : Quiet act s) :
    Refuses act s := fun j _ _ => quiet j

theorem quiet_pure (a : α) (s : σ) : Quiet (pure a : ExceptT ε (StateT σ Noted) α) s :=
  fun _ => ⟨rfl, #[], Array.append_empty.symm, silent_empty⟩

theorem quiet_throw (e : ε) (s : σ) : Quiet (throw e : ExceptT ε (StateT σ Noted) α) s :=
  fun _ => ⟨rfl, #[], Array.append_empty.symm, silent_empty⟩

theorem quiet_get (s : σ) : Quiet (get : ExceptT ε (StateT σ Noted) σ) s :=
  fun _ => ⟨rfl, #[], Array.append_empty.symm, silent_empty⟩

theorem quiet_lift {act : Noted α} (records : act.Records) (s : σ) :
    Quiet (liftM (m := Noted) act : ExceptT ε (StateT σ Noted) α) s := fun j => by
  obtain ⟨extra, journal, silent⟩ := records j
  exact ⟨rfl, extra, journal, silent⟩

theorem refuses_throw_bind (e : ε) (f : α → ExceptT ε (StateT σ Noted) β) (s : σ) :
    Refuses (throw e >>= f) s :=
  fun _ _ _ => ⟨rfl, #[], Array.append_empty.symm, silent_empty⟩

theorem Refuses.get_bind {f : σ → ExceptT ε (StateT σ Noted) β} {s : σ} (rest : Refuses (f s) s) :
    Refuses (get >>= f) s :=
  fun j e failed => rest j e failed

theorem Refuses.bind_quiet {x : ExceptT ε (StateT σ Noted) α} {f : α → ExceptT ε (StateT σ Noted) β}
    {s : σ} (first : Quiet x s) (rest : ∀ a, Refuses (f a) s) : Refuses (x >>= f) s := by
  intro j e failed
  obtain ⟨kept, extra, journal, silent⟩ := first j
  rw [run_bind] at failed ⊢
  generalize out : (x.run.run s).run j = o at kept journal failed ⊢
  obtain ⟨⟨r, s'⟩, j'⟩ := o
  dsimp only at kept journal
  subst kept journal
  cases r with
  | error e' => exact ⟨rfl, extra, rfl, silent⟩
  | ok a =>
    obtain ⟨kept', extra', journal', silent'⟩ := rest a _ e failed
    exact ⟨kept', extra ++ extra', by rw [journal', Array.append_assoc], silent.append silent'⟩

theorem Quiet.bind {x : ExceptT ε (StateT σ Noted) α} {f : α → ExceptT ε (StateT σ Noted) β}
    {s : σ} (first : Quiet x s) (rest : ∀ a, Quiet (f a) s) : Quiet (x >>= f) s := by
  intro j
  obtain ⟨kept, extra, journal, silent⟩ := first j
  rw [run_bind]
  generalize out : (x.run.run s).run j = o at kept journal ⊢
  obtain ⟨⟨r, s'⟩, j'⟩ := o
  dsimp only at kept journal
  subst kept journal
  cases r with
  | error e' => exact ⟨rfl, extra, rfl, silent⟩
  | ok a =>
    obtain ⟨kept', extra', journal', silent'⟩ := rest a _
    exact ⟨kept', extra ++ extra', by rw [journal', Array.append_assoc], silent.append silent'⟩

theorem Refuses.bind_ok {x : ExceptT ε (StateT σ Noted) α} {f : α → ExceptT ε (StateT σ Noted) β}
    {s : σ} (first : Refuses x s)
    (rest : ∀ a s' j, ∃ b, (((f a).run.run s').run j).1.1 = .ok b) : Refuses (x >>= f) s := by
  intro j e failed
  rw [run_bind] at failed ⊢
  generalize out : (x.run.run s).run j = o at failed ⊢
  obtain ⟨⟨r, s'⟩, j'⟩ := o
  cases r with
  | error e' =>
    have refused := first j e'
    rw [out] at refused
    exact refused rfl
  | ok a =>
    obtain ⟨b, ok⟩ := rest a s' j'
    dsimp only at failed
    rw [ok] at failed
    cases failed

theorem Refuses.of_ok {act : ExceptT ε (StateT σ Noted) α} {s : σ}
    (ok : ∀ j, ∃ a, ((act.run.run s).run j).1.1 = .ok a) : Refuses act s := by
  intro j e failed
  obtain ⟨a, succeeded⟩ := ok j
  rw [succeeded] at failed
  cases failed

end Refusal

end Chess
