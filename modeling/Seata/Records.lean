import Seata.Saga

/-!
# What the operations do to a record

Each operation changes its copy of the record by one of a few functions: `committing`, `decided` and `finalized` are
the three states that `submit` saves, `aborted` is what `abort` saves, `withBranch` and `withStatus` what the branch
operations save.

- `decided` gives every prepared branch the outcome of its own call (`withOutcome`);
- `GlobalTxn.frame`: the part of a record that no change of a status touches.
-/

namespace Seata

open Async

/-- The task of the call ends with a successful attempt. -/
def succeeds (e : World) (x : BranchCall) : Bool := (e.call x).verdict.getD false

/-- A prepared branch with the outcome of its call. -/
def withOutcome (e : World) (tx : GlobalTxn) (i : Nat) (b : BranchTxn) : BranchTxn :=
  if b.status = .prepared then
    { b with status := if succeeds e (branchCall tx i b) then .succeed else .failed }
  else b

/-- The calls of the prepared branches in a list of numbered branches. -/
def callsOf (tx : GlobalTxn) (l : List (BranchTxn × Nat)) : List BranchCall :=
  (l.filter fun p => p.1.status == .prepared).map fun p => branchCall tx p.2 p.1

theorem updateFirst_eq_none {α : Type} {p : α → Bool} {f : α → α} : ∀ {as : List α},
    updateFirst p f as = none ↔ ∀ a ∈ as, p a = false
  | [] => by simp [updateFirst]
  | a :: as => by
    unfold updateFirst
    cases hp : p a
    · simp [hp, @updateFirst_eq_none α p f as]
    · simp [hp]

/-- A member after the update is an old one, or the updated one. -/
theorem mem_updateFirst {α : Type} {p : α → Bool} {f : α → α} {x : α} : ∀ {as as' : List α},
    updateFirst p f as = some as' → x ∈ as' → x ∈ as ∨ ∃ a ∈ as, p a = true ∧ x = f a
  | a :: as, as', h, hx => by
    unfold updateFirst at h
    split at h
    · rename_i hp
      cases h
      rcases List.mem_cons.mp hx with rfl | hx
      · exact .inr ⟨a, List.mem_cons_self, hp, rfl⟩
      · exact .inl (List.mem_cons_of_mem _ hx)
    · obtain ⟨bs, hbs, rfl⟩ := Option.map_eq_some_iff.mp h
      rcases List.mem_cons.mp hx with rfl | hx
      · exact .inl List.mem_cons_self
      · rcases mem_updateFirst hbs hx with hx | ⟨b, hb, hp, rfl⟩
        · exact .inl (List.mem_cons_of_mem _ hx)
        · exact .inr ⟨b, List.mem_cons_of_mem _ hb, hp, rfl⟩

/-- The updated member is there. -/
theorem updateFirst_mem {α : Type} {p : α → Bool} {f : α → α} : ∀ {as as' : List α},
    updateFirst p f as = some as' → ∃ a ∈ as, p a = true ∧ f a ∈ as'
  | a :: as, as', h => by
    unfold updateFirst at h
    split at h
    · rename_i hp
      cases h
      exact ⟨a, List.mem_cons_self, hp, List.mem_cons_self⟩
    · obtain ⟨bs, hbs, rfl⟩ := Option.map_eq_some_iff.mp h
      obtain ⟨b, hb, hp, hf⟩ := updateFirst_mem hbs
      exact ⟨b, List.mem_cons_of_mem _ hb, hp, List.mem_cons_of_mem _ hf⟩

namespace GlobalTxn

/-- The calls that `submit` spawns, in the order of the branches. -/
def calls (tx : GlobalTxn) : List BranchCall := callsOf tx tx.branches.zipIdx

def committing (tx : GlobalTxn) (now : Int) : GlobalTxn := { tx with status := .committing, updatedUnix := now }

/-- The branches with the outcomes of their own calls. -/
def outcomes (tx : GlobalTxn) (e : World) : List BranchTxn := tx.branches.zipIdx.map fun p => withOutcome e tx p.2 p.1

def decided (tx : GlobalTxn) (e : World) (now : Int) : GlobalTxn :=
  { tx with branches := tx.outcomes e, updatedUnix := now }

def finalized (tx : GlobalTxn) (now : Int) : GlobalTxn :=
  { tx with status := finalStatus tx.branches, updatedUnix := now }

/-- What a submit makes of the record. -/
def submitted (tx : GlobalTxn) (e : World) : GlobalTxn :=
  ((tx.committing (e.clock 0)).decided e (e.clock 1)).finalized (e.clock 2)

def aborted (tx : GlobalTxn) (now : Int) : GlobalTxn :=
  { tx with branches := tx.branches.map failUnlessSucceed, status := .aborted, updatedUnix := now }

def withBranch (tx : GlobalTxn) (branchId action : String) (now : Int) : GlobalTxn :=
  { tx with branches := tx.branches ++ [⟨branchId, action, .prepared⟩], updatedUnix := now }

def withBranches (tx : GlobalTxn) (branches : List BranchTxn) (now : Int) : GlobalTxn :=
  { tx with branches := branches, updatedUnix := now }

/-- The record has a branch with this id. -/
def hasBranch (tx : GlobalTxn) (branchId : String) : Bool := tx.branches.any fun b => b.branchId == branchId

theorem hasBranch_iff {tx : GlobalTxn} {branchId : String} :
    tx.hasBranch branchId = true ↔ ∃ b ∈ tx.branches, b.branchId = branchId := by
  simp [hasBranch]

theorem not_hasBranch {tx : GlobalTxn} {branchId : String} :
    ¬ tx.hasBranch branchId = true ↔ ∀ b ∈ tx.branches, b.branchId ≠ branchId := by
  simp [hasBranch]

/-- What `addBranch` makes of the record. -/
def added (tx : GlobalTxn) (branchId action : String) (now : Int) : GlobalTxn :=
  if tx.hasBranch branchId then tx else tx.withBranch branchId action now

/-- The branches after the first one with this id got the status. -/
def report (tx : GlobalTxn) (status : BranchStatus) (branchId : String) : Option (List BranchTxn) :=
  updateFirst (fun b => b.branchId == branchId) (fun b => { b with status := status }) tx.branches

theorem report_eq_none {tx : GlobalTxn} {status : BranchStatus} {branchId : String} :
    tx.report status branchId = none ↔ ¬ tx.hasBranch branchId = true := by
  rw [report, updateFirst_eq_none, not_hasBranch]
  simp

/-- What `branchSucceed` and `branchFail` make of the record. -/
def reported (tx : GlobalTxn) (status : BranchStatus) (branchId : String) (now : Int) : GlobalTxn :=
  match tx.report status branchId with
  | none => tx
  | some bs => tx.withBranches bs now

end GlobalTxn

theorem GlobalTxn.added_status (tx : GlobalTxn) (branchId action : String) (now : Int) :
    (tx.added branchId action now).status = tx.status := by
  unfold GlobalTxn.added
  split <;> rfl

theorem GlobalTxn.reported_status (tx : GlobalTxn) (status : BranchStatus) (branchId : String) (now : Int) :
    (tx.reported status branchId now).status = tx.status := by
  unfold GlobalTxn.reported
  split <;> rfl

/-- The branches after a report: the old ones, and one with the new status. -/
theorem GlobalTxn.mem_reported {tx : GlobalTxn} {status : BranchStatus} {branchId : String} {now : Int} {x : BranchTxn}
    (hx : x ∈ (tx.reported status branchId now).branches) :
    x ∈ tx.branches ∨ x.status = status ∧ tx.hasBranch branchId = true := by
  unfold GlobalTxn.reported at hx
  split at hx
  · exact .inl hx
  · rename_i bs hbs
    rcases mem_updateFirst hbs hx with hx | ⟨b, hb, hp, rfl⟩
    · exact .inl hx
    · exact .inr ⟨rfl, GlobalTxn.hasBranch_iff.mpr ⟨b, hb, by simpa using hp⟩⟩

/-- The branch that a report is about has the new status. -/
theorem GlobalTxn.reported_mem {tx : GlobalTxn} {branchId : String} (status : BranchStatus) (now : Int)
    (h : tx.hasBranch branchId = true) :
    ∃ b ∈ (tx.reported status branchId now).branches, b.branchId = branchId ∧ b.status = status := by
  unfold GlobalTxn.reported
  cases hr : tx.report status branchId with
  | none => exact absurd h (GlobalTxn.report_eq_none.mp hr)
  | some bs =>
    obtain ⟨b, -, hp, hb⟩ := updateFirst_mem hr
    exact ⟨_, hb, by simpa using hp, rfl⟩

/-! ## The frame of a record -/

/-- What only `start` and `addBranch` write: everything but the statuses and the time of the last update. -/
structure Frame where
  gid : String
  mode : String
  payload : Bytes
  createdUnix : Int
  branches : List (String × String)
  deriving DecidableEq, Repr

def BranchTxn.label (b : BranchTxn) : String × String := (b.branchId, b.action)

def GlobalTxn.frame (tx : GlobalTxn) : Frame :=
  ⟨tx.gid, tx.mode, tx.payload, tx.createdUnix, tx.branches.map BranchTxn.label⟩

@[simp] theorem withOutcome_label (e : World) (tx : GlobalTxn) (i : Nat) (b : BranchTxn) :
    (withOutcome e tx i b).label = b.label := by
  unfold withOutcome
  split <;> rfl

@[simp] theorem failUnlessSucceed_label (b : BranchTxn) : (failUnlessSucceed b).label = b.label := by
  unfold failUnlessSucceed
  split <;> rfl

theorem map_zipIdx_label {f : Nat → BranchTxn → BranchTxn} (hf : ∀ i b, (f i b).label = b.label) :
    ∀ (bs : List BranchTxn) (n : Nat), ((bs.zipIdx n).map fun p => f p.2 p.1).map BranchTxn.label =
      bs.map BranchTxn.label
  | [], _ => rfl
  | b :: bs, n => by
    simp only [List.zipIdx_cons, List.map_cons, hf, map_zipIdx_label hf bs (n + 1)]

theorem updateFirst_map {α β : Type} {p : α → Bool} {f : α → α} {g : α → β} (hg : ∀ a, g (f a) = g a) :
    ∀ {as as' : List α}, updateFirst p f as = some as' → as'.map g = as.map g
  | a :: as, as', h => by
    unfold updateFirst at h
    split at h
    · cases h
      rw [List.map_cons, List.map_cons, hg]
    · obtain ⟨bs, hbs, rfl⟩ := Option.map_eq_some_iff.mp h
      rw [List.map_cons, List.map_cons, updateFirst_map hg hbs]

namespace GlobalTxn

variable (tx : GlobalTxn)

@[simp] theorem committing_frame (now : Int) : (tx.committing now).frame = tx.frame := rfl

@[simp] theorem decided_frame (e : World) (now : Int) : (tx.decided e now).frame = tx.frame := by
  simp only [frame, decided, outcomes, map_zipIdx_label (withOutcome_label e tx)]

@[simp] theorem finalized_frame (now : Int) : (tx.finalized now).frame = tx.frame := rfl

@[simp] theorem aborted_frame (now : Int) : (tx.aborted now).frame = tx.frame := by
  simp [frame, aborted]

theorem withBranches_frame {tx : GlobalTxn} {status : BranchStatus} {branchId : String}
    {bs : List BranchTxn} {now : Int} (h : tx.report status branchId = some bs) :
    (tx.withBranches bs now).frame = tx.frame := by
  have hl : bs.map BranchTxn.label = tx.branches.map BranchTxn.label := updateFirst_map (by intro b; rfl) h
  simp only [frame, withBranches, hl]

@[simp] theorem committing_outcomes (now : Int) (e : World) : (tx.committing now).outcomes e = tx.outcomes e := rfl

@[simp] theorem decided_branches (e : World) (now : Int) : (tx.decided e now).branches = tx.outcomes e := rfl

@[simp] theorem committing_branches (now : Int) : (tx.committing now).branches = tx.branches := rfl

@[simp] theorem finalized_branches (now : Int) : (tx.finalized now).branches = tx.branches := rfl

theorem frame_gid {a b : GlobalTxn} (h : a.frame = b.frame) : a.gid = b.gid := congrArg Frame.gid h

end GlobalTxn

/-! ## Terminal records -/

/-- Every branch has its outcome. -/
def Resolved (bs : List BranchTxn) : Prop := ∀ b ∈ bs, b.status ≠ .prepared

/-- A finished transaction whose status agrees with its branches. -/
structure Terminal (tx : GlobalTxn) : Prop where
  status : tx.status = .committed ∨ tx.status = .aborted
  resolved : Resolved tx.branches
  succeeded : tx.status = .committed → ∀ b ∈ tx.branches, b.status = .succeed

/-- Of resolved branches, the last arm of the finalization is never taken. -/
theorem finalStatus_resolved {bs : List BranchTxn} (h : Resolved bs) :
    finalStatus bs = if ∀ b ∈ bs, b.status = .succeed then .committed else .aborted := by
  unfold finalStatus
  by_cases hall : ∀ b ∈ bs, b.status = .succeed
  · have ha : (bs.all fun b => b.status == .succeed) = true := by simpa using hall
    rw [if_pos ha, if_pos hall]
  · have ha : ¬ (bs.all fun b => b.status == .succeed) = true := by simpa using hall
    have hf : (bs.any fun b => b.status == .failed) = true := by
      push Not at hall
      obtain ⟨b, hb, hs⟩ := hall
      have hp := h b hb
      rw [List.any_eq_true]
      refine ⟨b, hb, ?_⟩
      cases hbs : b.status <;> simp_all
    rw [if_neg ha, if_pos hf, if_neg hall]

theorem GlobalTxn.report_resolved {tx : GlobalTxn} {status : BranchStatus} {branchId : String} {bs : List BranchTxn}
    (hs : status ≠ .prepared) (h : Resolved tx.branches) (hbs : tx.report status branchId = some bs) : Resolved bs := by
  intro b hb
  rcases mem_updateFirst hbs hb with hb | ⟨b', -, -, rfl⟩
  · exact h b hb
  · exact hs

theorem withOutcome_resolved (e : World) (tx : GlobalTxn) (i : Nat) (b : BranchTxn) :
    (withOutcome e tx i b).status ≠ .prepared := by
  unfold withOutcome
  split
  · dsimp only
    split <;> simp
  · assumption

namespace GlobalTxn

variable (tx : GlobalTxn)

theorem outcomes_resolved (e : World) : Resolved (tx.outcomes e) := by
  intro b hb
  obtain ⟨p, -, rfl⟩ := List.mem_map.mp hb
  exact withOutcome_resolved e tx p.2 p.1

theorem finalized_terminal {tx : GlobalTxn} (h : Resolved tx.branches) (now : Int) : Terminal (tx.finalized now) where
  status := by
    simp only [finalized, finalStatus_resolved h]
    split <;> simp
  resolved := h
  succeeded := by
    simp only [finalized, finalStatus_resolved h]
    split
    · exact fun _ => by assumption
    · exact fun hc => by cases hc

theorem aborted_terminal (now : Int) : Terminal (tx.aborted now) where
  status := .inr rfl
  resolved := by
    intro b hb
    obtain ⟨b', -, rfl⟩ := List.mem_map.mp hb
    unfold failUnlessSucceed
    split <;> simp_all
  succeeded := fun hc => by cases hc

end GlobalTxn

theorem calls_resolved {tx : GlobalTxn} (h : Resolved tx.branches) : tx.calls = [] := by
  have hf : (tx.branches.zipIdx.filter fun p => p.1.status == .prepared) = [] := by
    rw [List.filter_eq_nil_iff]
    intro p hp
    have := h p.1 (List.fst_mem_of_mem_zipIdx hp)
    simpa using this
  rw [GlobalTxn.calls, callsOf, hf, List.map_nil]

theorem outcomes_of_resolved {tx : GlobalTxn} (h : Resolved tx.branches) (e : World) : tx.outcomes e = tx.branches := by
  apply List.ext_getElem?
  intro i
  cases hb : tx.branches[i]? with
  | none => simp [GlobalTxn.outcomes, List.getElem?_zipIdx, hb]
  | some b =>
    have hw : withOutcome e tx i b = b := if_neg (h b (List.mem_of_getElem? hb))
    simp [GlobalTxn.outcomes, List.getElem?_zipIdx, hb, hw]

end Seata
