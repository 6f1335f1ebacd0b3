import Seata.Upkeep
import Seata.Json

/-!
# Races of submit and abort

However submits and aborts of one transaction interleave, when all of them have returned without an error the record
is terminal (`races_settle`). Each of them writes a terminal record last, so whoever writes last of all leaves one —
the `Committing` of a submit is always followed by a later write of the same submit.
-/

namespace Seata

open Async

/-- The request returned without an error. -/
def returned {α : Type} (r : Except Error α × Core BranchCall Error) : Prop := ∃ a, r.1 = .ok a

theorem error_not_returned {α : Type} (e : Error) (c : Core BranchCall Error) :
    ¬ returned ((.error e, c) : Except Error α × Core BranchCall Error) := fun ⟨_, h⟩ => nomatch h

/-- A record within the frame is there. -/
def present (f : Frame) (o : Option GlobalTxn) : Prop := ∃ tx, o = some tx ∧ tx.frame = f

theorem present_ofFrame (f : Frame) : OfFrame (present f) := by
  rintro a b h ⟨tx, htx, hf⟩
  cases htx
  exact ⟨b, rfl, h.symm.trans hf⟩

section Settles

variable [SerdeJson]

/-- An encoded terminal record within the frame. -/
def SettledIn (f : Frame) (v : Bytes) : Prop := ∃ tx, v = toVec tx ∧ tx.frame = f ∧ Terminal tx

variable {f : Frame} {c : Core BranchCall Error} {d : Prop}

/-- The rule for the operations on one transaction. -/
abbrev SettlesIn (f : Frame) (x : Action Unit) (d : Prop) : Prop :=
  x.Settles (Keeps {f.gid} (present f) anyMark) returned (txnKey f.gid) (SettledIn f) d

theorem settles_saveLast {tx : GlobalTxn} (hf : tx.frame = f) (ht : Terminal tx) : SettlesIn f (saveLast tx c) d := by
  subst hf
  unfold saveLast
  exact .tryWrite (fun _ => ⟨tx, rfl, rfl, ht⟩) fun e => error_not_returned e _

theorem settles_onRecord {g : GlobalTxn → Core BranchCall Error → Action Unit}
    (hg : ∀ tx c, tx.frame = f → SettlesIn f (g tx c) d) :
    SettlesIn f (Script.tryRead c (txnKey f.gid) fun v c => onRecord v c g) d := by
  refine .tryRead (fun v hv => ?_) fun e => error_not_returned e _
  apply onRecord_of_keeps (N := fun x => SettlesIn f x d) hv (Set.mem_singleton _)
  · rintro ⟨tx, htx, -⟩
    cases htx
  · rintro tx - ⟨tx', htx, hf⟩
    cases htx
    exact hg tx _ hf

theorem settles_submit (exec : ExecConfig) : SettlesIn f (script (submit exec f.gid) c) d := by
  rw [script_submit]
  apply settles_onRecord
  intro tx c hf
  subst hf
  unfold submitRest
  refine .tryWrite (k := txnKey tx.gid) ?_ fun e => error_not_returned e _
  refine .spawnAll ?_ _
  refine .tryWrite (k := txnKey tx.gid) ?_ fun e => error_not_returned e _
  exact settles_saveLast (by simp) (GlobalTxn.finalized_terminal (GlobalTxn.outcomes_resolved _ _) _)

theorem settles_abort : SettlesIn f (script (abort f.gid) c) d := by
  rw [script_abort]
  exact settles_onRecord fun tx c hf => settles_saveLast (by simp [hf]) (tx.aborted_terminal _)

/-- **Races of submit and abort settle** in a terminal record of the same transaction. -/
theorem races_settle (exec : ExecConfig) {st : Kv} {tx : GlobalTxn} (hst : Stored st tx)
    {rs : List (SagaRequest × World)} (hne : rs ≠ []) (hrs : ∀ r ∈ rs, r.1 = .submit tx.gid ∨ r.1 = .abort tx.gid)
    {tr : Log} {s : Handlers Unit}
    (h : Run (managing exec st rs) tr s) (hok : s.AllOk) :
    ∃ tx', Stored s.store tx' ∧ Terminal tx' ∧ tx'.frame = tx.frame := by
  have hof := present_ofFrame tx.frame
  have hscripts : ∀ x ∈ (managing exec st rs).todos,
    x.Safe (Keeps {tx.gid} (present tx.frame) anyMark) (fun _ => True) ∧
      ∀ d, SettlesIn tx.frame x d := by
    intro x hx
    rw [managing_todos] at hx
    obtain ⟨⟨r, w⟩, hr, rfl⟩ := List.mem_map.mp hx
    rcases hrs _ hr with hreq | hreq <;> dsimp only at hreq <;> subst hreq
    · exact ⟨safe_submit hof exec rfl, fun d => settles_submit exec⟩
    · exact ⟨safe_abort hof rfl, fun d => settles_abort⟩
  obtain ⟨x, hx⟩ : ∃ x, x ∈ (managing exec st rs).todos := by
    apply List.exists_mem_of_ne_nil
    simpa [managing_todos] using hne
  obtain ⟨v, hv, tx', rfl, hf, ht⟩ := h.interleaving.settled (keeps_stored hst rfl ⟨tx, rfl, rfl⟩)
    (fun x hx => (hscripts x hx).1)
    (fun x hx => (hscripts x hx).2 True) ⟨x, hx, (hscripts x hx).2 False⟩ (todos_allOk hok)
  refine ⟨tx', ?_, ht, hf⟩
  rw [Stored, GlobalTxn.frame_gid hf]
  exact hv

end Settles

/-- An abort that comes between the first and the second save of a submit. -/
theorem races_settle_overtaken :
    let s₀ := @managing Json.serdeJson .default (@holding Json.serdeJson oneBranch)
      [(.submit "g", .calm 2), (.abort "g", .calm 3)]
    ∃ tr s, Run s₀ tr s ∧ ∃ tx', @Stored Json.serdeJson s.store tx' ∧ Terminal tx' ∧ tx'.frame = oneBranch.frame := by
  intro s₀
  obtain ⟨tr, s, h, hq⟩ := run_of_exec (s := s₀)
    [.main 0, .main 0, .main 0, .main 0, .main 0, .main 0, .main 1, .main 1, .main 1, .task 0 0, .main 0, .main 0,
      .main 0, .main 0, .main 0] (fun x => decide x.2.AllOk) (by decide +kernel)
  exact ⟨tr, s, h, @races_settle Json.serdeJson .default _ oneBranch (@stored_holding Json.serdeJson _) _ (by simp)
    (by simp [oneBranch]) tr s h (of_decide_eq_true hq)⟩

end Seata
