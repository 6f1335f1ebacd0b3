import Seata.Repository
import Seata.Async.Pages
import Seata.Async.Linear

/-!
# The SQL backend

`SeaKv` keeps the store in a table whose primary key is the key. A `put` is two statements: a select, and then an update
or an insert by what the select has found. On MySQL the library unpacks the id of a new row, which no key is, so an
insert takes place and is answered with an error.

- `put_upsert_iff`: concurrent puts and gets are atomic upserts and reads **exactly** in the runs in which every row
  that is written is one that the database takes, and a new row is inserted on Postgres, by no other put since the
  select (`Undisturbed`);
- `sea_scan_iff`: exactly when a scan, which cuts the rows before it looks at their keys, is complete.
-/

namespace Seata

open Async Async.Linear

namespace SeaKv

/-! ## Statements -/

/-- The dialect of the connection. -/
inductive DbBackend where
  | mySql
  | postgres
  deriving DecidableEq, Repr

/-- The database: its dialect, and the rows that are not too large for it or for its index. -/
structure Database where
  backend : DbBackend
  holds : Bytes → Bytes → Bool

/-- The rows that the table takes: `k VARBINARY(255) PRIMARY KEY` on MySQL, `k bytea PRIMARY KEY` on Postgres. -/
def Database.takes (db : Database) (k v : Bytes) : Bool :=
  match db.backend with
  | .mySql => decide (k.length ≤ 255) && db.holds k v
  | .postgres => db.holds k v

/-- A statement on the table. -/
inductive Statement where
  | select (k : Bytes)
  | insert (k v : Bytes)
  | update (k v : Bytes)
  deriving DecidableEq, Repr

inductive DbErr where
  | exec
  | recordNotUpdated
  | unpackInsertId
  deriving DecidableEq, Repr

@[reducible] def Statement.Answer : Statement → Type
  | .select _ => Option Bytes
  | .insert _ _ => Except DbErr Unit
  | .update _ _ => Except DbErr Unit

/-- An insert fails when there is a row with its key, an update when there is none, and both with a row that the
database does not take. -/
def Statement.perform (db : Database) : Semantics Statement.Answer Kv
  | .select k, t => (t.lookup k, t)
  | .insert k v, t => if db.takes k v ∧ t.lookup k = none then (.ok (), t.insert k v) else (.error .exec, t)
  | .update k v, t =>
    if t.lookup k = none then (.error .recordNotUpdated, t)
    else if db.takes k v then (.ok (), t.insert k v)
    else (.error .exec, t)

/-- A call of the backend. -/
abbrev Db (α : Type) : Type := ExceptT DbErr (Code Statement Statement.Answer) α

/-- What the library makes of a new row: Postgres returns the row, and MySQL the id of it, which is to be unpacked as
the key. -/
def Database.inserted (db : Database) : Except DbErr Unit :=
  match db.backend with
  | .mySql => .error .unpackInsertId
  | .postgres => .ok ()

def select (k : Bytes) : Db (Option Bytes) := .lift (Code.perform (Statement.select k))
def update (k v : Bytes) : Db Unit := .mk (Code.perform (Statement.update k v))

def insert (db : Database) (k v : Bytes) : Db Unit := do
  .mk (Code.perform (Statement.insert k v))
  .mk (.ret db.inserted)

def get (key : Bytes) : Db (Option Bytes) := do
  let res ← select key
  return res

/-- An update on MySQL also reads the row back, which changes nothing. -/
def put (db : Database) (key value : Bytes) : Db Unit := do
  let existing ← select key
  match existing with
  | some _ => update key value
  | none => insert db key value

/-! ## Concurrent calls -/

inductive Call where
  | get (k : Bytes)
  | put (k v : Bytes)
  deriving DecidableEq, Repr

inductive Result where
  | got (r : Except DbErr (Option Bytes))
  | put (r : Except DbErr Unit)
  deriving DecidableEq, Repr

def Call.code (db : Database) : Call → Code Statement Statement.Answer Result
  | .get k => (SeaKv.get k).run.bind fun r => .ret (.got r)
  | .put k v => (SeaKv.put db k v).run.bind fun r => .ret (.put r)

/-- What the call does as one atomic step. -/
def Call.atomic (t : Kv) : Call → Result × Kv
  | .get k => (.got (.ok (t.lookup k)), t)
  | .put k v => (.put (.ok ()), t.insert k v)

/-- Calls in flight over the table. -/
abbrev Calls : Type := Config Statement Statement.Answer Kv Result

/-- The statements of a run. -/
abbrev SqlTrace : Type := Trace Statement.Answer

def calling (db : Database) (t : Kv) (calls : List Call) : Calls := ⟨t, calls.map (Call.code db)⟩

/-- What the `i`-th call does as one atomic step. -/
def specOf (calls : List Call) (i : Nat) (t : Kv) : Result × Kv :=
  match calls[i]? with
  | some c => c.atomic t
  | none => (.put (.ok ()), t)

section Conditions

variable (db : Database)

/-- The database takes the row: on MySQL its key has at most 255 bytes. -/
def Database.Fits (k v : Bytes) : Prop := (db.backend = .mySql → k.length ≤ 255) ∧ db.holds k v = true

/-- An insert on the key, of a row that the database takes. -/
def Statement.Inserts (k : Bytes) (s : Statement) : Prop := ∃ v, s = .insert k v ∧ db.Fits k v

/-- There was an insert on the key since the select of call `i` found no row. -/
def Raced (tr : SqlTrace) (i : Nat) (k : Bytes) : Prop :=
  ∃ a b x, tr = a ++ (i, ⟨.select k, none⟩) :: b ∧ x ∈ b ∧ x.2.1.Inserts db k

/-- The statement writes a row that the database takes; and if it is an insert, it is one on Postgres, of a key that was
not inserted since the select. -/
def Statement.Clear (tr : SqlTrace) (i : Nat) : Statement → Prop
  | .select _ => True
  | .insert k v => db.backend = .postgres ∧ db.Fits k v ∧ ¬ Raced db tr i k
  | .update k v => db.Fits k v

/-- **Every statement is clear.** -/
def Undisturbed (tr : SqlTrace) : Prop := ∀ a b i x, tr = a ++ (i, x) :: b → x.1.Clear db a i

end Conditions

section Puts

variable {db : Database}

theorem code_get (k : Bytes) : (Call.get k).code db = .ask (.select k) fun v => .ret (.got (.ok v)) := rfl

theorem code_put (k v : Bytes) : (Call.put k v).code db = .ask (.select k) fun o => match o with
    | some _ => .ask (.update k v) fun r => .ret (.put r)
    | none => .ask (.insert k v) fun r => .ret (.put (r.bind fun _ => db.inserted)) := by
  refine congrArg (Code.ask (Statement.select k)) (funext fun o => ?_)
  cases o with
  | some _ => rfl
  | none =>
    refine congrArg (Code.ask (Statement.insert k v)) (funext fun r => ?_)
    cases r <;> rfl

theorem code_ne_ret (c : Call) (r : Result) : c.code db ≠ .ret r := by
  cases c with
  | get k => rw [code_get]; simp
  | put k v => rw [code_put]; simp

/-! ## What a statement does -/

theorem takes_iff {k v : Bytes} : db.takes k v = true ↔ db.Fits k v := by
  rw [Database.takes, Database.Fits]
  cases db.backend <;> simp

theorem inserts_insert {k k' v : Bytes} : (Statement.insert k' v).Inserts db k ↔ k' = k ∧ db.Fits k v := by
  constructor
  · rintro ⟨v', heq, hfits⟩
    cases heq
    exact ⟨rfl, hfits⟩
  · rintro ⟨rfl, hfits⟩
    exact ⟨v, rfl, hfits⟩

theorem not_inserts_select {k k' : Bytes} : ¬ (Statement.select k').Inserts db k := nofun

theorem not_inserts_update {k k' v : Bytes} : ¬ (Statement.update k' v).Inserts db k := nofun

/-- **Rows appear by inserts** and never disappear. -/
theorem row_perform (t : Kv) (s : Statement) (k : Bytes) :
    (s.perform db t).2.lookup k ≠ none ↔ t.lookup k ≠ none ∨ s.Inserts db k := by
  cases s with
  | select k' => exact (or_iff_left not_inserts_select).symm
  | insert k' v =>
    rw [inserts_insert, ← takes_iff, Statement.perform]
    by_cases hk : k' = k
    · subst hk
      split
      · simp_all
      · simp_all
    · rw [or_iff_left fun h => hk h.1]
      split
      · rw [Finmap.lookup_insert_of_ne t (Ne.symm hk)]
      · rfl
  | update k' v =>
    rw [or_iff_left not_inserts_update, Statement.perform]
    split
    · rfl
    · rename_i hrow
      split
      · by_cases hk : k = k'
        · subst hk
          simp [hrow]
        · rw [Finmap.lookup_insert_of_ne t hk]
      · rfl

section Traces

/-- The place of an element in a list with one more element at the end: the last one, or one before. -/
theorem snoc_eq_append_cons {α : Type} {l a b : List α} {x y : α} (h : l ++ [x] = a ++ y :: b) :
    (b = [] ∧ l = a ∧ x = y) ∨ ∃ b', b = b' ++ [x] ∧ l = a ++ y :: b' := by
  rcases List.eq_nil_or_concat b with rfl | ⟨b', z, rfl⟩
  · obtain ⟨rfl, hx⟩ := List.append_inj' h rfl
    exact .inl ⟨rfl, rfl, List.singleton_inj.mp hx⟩
  · rw [List.concat_eq_append, ← List.cons_append, ← List.append_assoc] at h
    obtain ⟨rfl, hx⟩ := List.append_inj' h rfl
    cases hx
    exact .inr ⟨b', List.concat_eq_append, rfl⟩

variable {tr : SqlTrace} {i j : Nat} {k : Bytes} {x : Performed Statement.Answer}

/-- A further statement is a race with a put that has found no row, if it inserts the key. -/
theorem raced_snoc (hsel : (j, ⟨.select k, none⟩) ∈ tr) :
    Raced db (tr ++ [(i, x)]) j k ↔ Raced db tr j k ∨ x.1.Inserts db k := by
  constructor
  · rintro ⟨a, b, y, heq, hmem, hins⟩
    rcases snoc_eq_append_cons heq with ⟨rfl, -, -⟩ | ⟨b', rfl, rfl⟩
    · cases hmem
    · rcases List.mem_append.mp hmem with hmem | hmem
      · exact .inl ⟨a, b', y, rfl, hmem, hins⟩
      · cases List.mem_singleton.mp hmem
        exact .inr hins
  · rintro (⟨a, b, y, rfl, hmem, hins⟩ | hins)
    · exact ⟨a, b ++ [(i, x)], y, by simp, List.mem_append_left _ hmem, hins⟩
    · obtain ⟨a, b, rfl⟩ := List.append_of_mem hsel
      exact ⟨a, b ++ [(i, x)], (i, x), by simp, by simp, hins⟩

/-- The first statement of a call is no race. -/
theorem not_raced_fresh (hno : ∀ y, (i, y) ∉ tr) : ¬ Raced db (tr ++ [(i, x)]) i k := by
  rintro ⟨a, b, y, heq, hmem, -⟩
  rcases snoc_eq_append_cons heq with ⟨rfl, -, -⟩ | ⟨b', rfl, rfl⟩
  · cases hmem
  · exact hno _ (List.mem_append_right _ List.mem_cons_self)

theorem undisturbed_snoc : Undisturbed db (tr ++ [(i, x)]) ↔ Undisturbed db tr ∧ x.1.Clear db tr i := by
  constructor
  · intro h
    constructor
    · rintro a b j y rfl
      exact h a (b ++ [(i, x)]) j y (by simp)
    · exact h tr [] i x rfl
  · rintro ⟨h, hlast⟩ a b j y heq
    rcases snoc_eq_append_cons heq with ⟨rfl, rfl, hx⟩ | ⟨b', rfl, rfl⟩
    · cases hx
      exact hlast
    · exact h a b' j y rfl

end Traces

/-! ## The invariant -/

/-- Where call `i` can be, and what the table and the trace then say: a put that will insert finds its key exactly if it
was raced. -/
inductive At (db : Database) (t : Kv) (tr : SqlTrace) (i : Nat) :
    Call → Code Statement Statement.Answer Result → Prop
  | fresh {c : Call} (hno : ∀ y, (i, y) ∉ tr) : At db t tr i c (c.code db)
  | updating {k v : Bytes} (row : t.lookup k ≠ none) :
      At db t tr i (.put k v) (.ask (.update k v) fun r => .ret (.put r))
  | inserting {k v : Bytes} (sel : (i, ⟨.select k, none⟩) ∈ tr) (raced : Raced db tr i k ↔ t.lookup k ≠ none) :
      At db t tr i (.put k v) (.ask (.insert k v) fun r => .ret (.put (r.bind fun _ => db.inserted)))
  | got {k : Bytes} {o : Option Bytes} : At db t tr i (.get k) (.ret (.got (.ok o)))
  | put {k v : Bytes} {r : Except DbErr Unit} : At db t tr i (.put k v) (.ret (.put r))

/-- A statement of another call leaves a call where it is. -/
theorem At.other {t : Kv} {tr : SqlTrace} {i j : Nat} {c : Call} {p : Code Statement Statement.Answer Result}
    (h : At db t tr j c p) (hij : i ≠ j) (s : Statement) :
    At db (s.perform db t).2 (tr ++ [(i, ⟨s, (s.perform db t).1⟩)]) j c p := by
  cases h with
  | fresh hno =>
    refine .fresh fun y hy => ?_
    rcases List.mem_append.mp hy with hy | hy
    · exact hno y hy
    · exact hij (Prod.mk.inj (List.mem_singleton.mp hy)).1.symm
  | updating row => exact .updating ((row_perform t s _).mpr (.inl row))
  | inserting sel raced =>
    refine .inserting (List.mem_append_left _ sel) ?_
    rw [raced_snoc sel, raced, row_perform]
  | got => exact .got
  | put => exact .put

/-- A call returns a result of its own kind. -/
theorem At.returned {t : Kv} {tr : SqlTrace} {i : Nat} {c : Call} {p : Code Statement Statement.Answer Result}
    (h : At db t tr i c p) {r : Result} (hp : p = .ret r) :
    (∀ k v, c = .put k v → ∃ e, r = .put e) ∧ ∀ e, r = .put e → ∃ k v, c = .put k v := by
  cases h with
  | fresh hno => exact absurd hp (code_ne_ret c r)
  | updating row => cases hp
  | inserting sel raced => cases hp
  | got =>
    cases hp
    exact ⟨nofun, nofun⟩
  | put =>
    cases hp
    exact ⟨fun _ _ _ => ⟨_, rfl⟩, fun _ _ => ⟨_, _, rfl⟩⟩

section Reached

variable {t₀ : Kv} {calls : List Call}

/-- No put has failed. -/
def PutsOk (c : Calls) : Prop := ∀ (i : Nat) (r : Except DbErr Unit), c.calls[i]? = some (.ret (.put r)) → r = .ok ()

/-- **The invariant** of concurrent calls. -/
structure Reached (db : Database) (t₀ : Kv) (calls : List Call) (tr : SqlTrace) (c : Calls) : Prop where
  each : ∀ i x, c.calls[i]? = some x → ∃ call, calls[i]? = some call ∧ At db c.state tr i call x
  ok : PutsOk c ↔ Undisturbed db tr
  linear : Undisturbed db tr → Linearizable (specOf calls) t₀ tr c

theorem reached_nil (t₀ : Kv) (calls : List Call) : Reached db t₀ calls [] (calling db t₀ calls) := by
  have hno (i : Nat) (r : Result) : (calls.map (Call.code db))[i]? ≠ some (.ret r) := by
    rw [List.getElem?_map, ne_eq, Option.map_eq_some_iff]
    rintro ⟨c, -, hc⟩
    exact code_ne_ret c r hc
  constructor
  · intro i x hx
    rw [calling, List.getElem?_map, Option.map_eq_some_iff] at hx
    obtain ⟨c, hc, rfl⟩ := hx
    exact ⟨c, hc, .fresh nofun⟩
  · exact iff_of_true (fun i r hr => absurd hr (hno i _)) fun a b i x h => by simp at h
  · exact fun _ => ⟨[], .nil hno⟩

variable {tr : SqlTrace} {c : Calls} {i : Nat} {s : Statement}

/-- What a statement of call `i` has to show: where it leads to, whether it is a failure, and a linearization. -/
theorem Reached.snoc {k : s.Answer → Code Statement Statement.Answer Result} {call : Call}
    {y : Code Statement Statement.Answer Result} (h : Reached db t₀ calls tr c)
    (hi : c.calls[i]? = some (.ask s k)) (hcall : calls[i]? = some call)
    (hat : At db (s.perform db c.state).2 (tr ++ [(i, ⟨s, (s.perform db c.state).1⟩)]) i call y)
    (hok : (∀ r, y = .ret (.put r) → r = .ok ()) ↔ s.Clear db tr i)
    (hlin : s.Clear db tr i → ∀ order, Linearization (specOf calls) t₀ tr c order →
      Linearizable (specOf calls) t₀ (tr ++ [(i, ⟨s, (s.perform db c.state).1⟩)])
        ⟨(s.perform db c.state).2, c.calls.set i y⟩) :
    Reached db t₀ calls (tr ++ [(i, ⟨s, (s.perform db c.state).1⟩)])
      ⟨(s.perform db c.state).2, c.calls.set i y⟩ := by
  have hlen : i < c.calls.length := (List.getElem?_eq_some_iff.mp hi).1
  constructor
  · intro j x hx
    by_cases hij : i = j
    · subst hij
      rw [List.getElem?_set_self hlen] at hx
      obtain rfl := Option.some.inj hx
      exact ⟨call, hcall, hat⟩
    · rw [List.getElem?_set_ne hij] at hx
      obtain ⟨call', hcall', hat'⟩ := h.each j x hx
      exact ⟨call', hcall', hat'.other hij s⟩
  · rw [undisturbed_snoc, ← h.ok, ← hok]
    constructor
    · refine fun hall => ⟨fun j r hr => ?_, fun r hr => ?_⟩
      · have hij : i ≠ j := by
          rintro rfl
          rw [hi] at hr
          cases hr
        exact hall j r (by rw [List.getElem?_set_ne hij, hr])
      · exact hall i r (by rw [List.getElem?_set_self hlen, hr])
    · rintro ⟨hold, hnew⟩ j r hr
      by_cases hij : i = j
      · subst hij
        rw [List.getElem?_set_self hlen] at hr
        exact hnew r (Option.some.inj hr)
      · rw [List.getElem?_set_ne hij] at hr
        exact hold j r hr
  · intro hund
    obtain ⟨hund, hclear⟩ := undisturbed_snoc.mp hund
    obtain ⟨order, horder⟩ := h.linear hund
    exact hlin hclear order horder

/-- A put that answers this fails, if it is an error. -/
theorem puts_ok_iff {r : Except DbErr Unit} :
    (∀ r', (.ret (.put r) : Code Statement Statement.Answer Result) = .ret (.put r') → r' = .ok ()) ↔ r = .ok () :=
  ⟨fun h => h r rfl, fun h r' hr => by cases hr; exact h⟩

/-- The step lemma: the cases are where the call is. -/
theorem Reached.step {c' : Calls} {x : Performed Statement.Answer} (h : Reached db t₀ calls tr c)
    (hs : c.step (Statement.perform db) i = some (c', x)) : Reached db t₀ calls (tr ++ [(i, x)]) c' := by
  obtain ⟨s, k, hi, rfl, rfl⟩ := step_cases hs
  obtain ⟨call, hcall, hat⟩ := h.each i _ hi
  have hspec : specOf calls i c.state = call.atomic c.state := by rw [specOf, hcall]
  generalize hp : Code.ask s k = p at hat
  cases hat with
  | fresh hno =>
    cases call with
    | get key =>
      rw [code_get] at hp
      cases hp
      exact h.snoc hi hcall .got (iff_of_true nofun trivial) fun _ order horder => ⟨_, horder.commit hi hspec⟩
    | put key v =>
      rw [code_put] at hp
      cases hp
      have hsel : Statement.perform db (.select key) c.state = (c.state.lookup key, c.state) := rfl
      cases hl : c.state.lookup key with
      | some old =>
        rw [hl] at hsel
        have hstep := h.snoc (y := .ask (.update key v) fun r => .ret (.put r)) hi hcall
        rw [hsel] at hstep ⊢
        exact hstep (.updating (by rw [hl]; nofun)) (iff_of_true nofun trivial)
          fun _ order horder => ⟨order, horder.silent hi⟩
      | none =>
        rw [hl] at hsel
        have hstep := h.snoc (y := .ask (.insert key v) fun r => .ret (.put (r.bind fun _ => db.inserted))) hi hcall
        rw [hsel] at hstep ⊢
        refine hstep (.inserting (List.mem_append_right _ (List.mem_singleton_self _)) ?_)
          (iff_of_true nofun trivial) fun _ order horder => ⟨order, horder.silent hi⟩
        exact iff_of_false (not_raced_fresh hno) (fun hrow => hrow hl)
  | @updating key v row =>
    cases hp
    by_cases htakes : db.takes key v = true
    · have hupd : Statement.perform db (.update key v) c.state = (.ok (), c.state.insert key v) := by
        rw [Statement.perform, if_neg row, if_pos htakes]
      have hstep := h.snoc (y := .ret (.put (.ok ()))) hi hcall
      rw [hupd] at hstep ⊢
      exact hstep .put (puts_ok_iff.trans (iff_of_true rfl (takes_iff.mp htakes))) fun _ order horder =>
        ⟨_, horder.commit hi hspec⟩
    · have hupd : Statement.perform db (.update key v) c.state = (.error .exec, c.state) := by
        rw [Statement.perform, if_neg row, if_neg htakes]
      have hstep := h.snoc (y := .ret (.put (.error .exec))) hi hcall
      rw [hupd] at hstep ⊢
      have hnot : ¬ (Statement.update key v).Clear db tr i := fun hfits => htakes (takes_iff.mpr hfits)
      exact hstep .put (puts_ok_iff.trans (iff_of_false nofun hnot)) fun hclear => absurd hclear hnot
  | @inserting key v sel raced =>
    cases hp
    by_cases hins : db.takes key v = true ∧ c.state.lookup key = none
    · have hnew : Statement.perform db (.insert key v) c.state = (.ok (), c.state.insert key v) := if_pos hins
      have hstep := h.snoc (y := .ret (.put db.inserted)) hi hcall
      rw [hnew] at hstep ⊢
      have hraced : ¬ Raced db tr i key := fun hr => raced.mp hr hins.2
      cases hdb : db.backend with
      | mySql =>
        -- the row is there, and its id is no key
        have herr : db.inserted = .error .unpackInsertId := by rw [Database.inserted, hdb]
        rw [herr] at hstep
        have hnot : ¬ (Statement.insert key v).Clear db tr i := fun hclear => nomatch hdb.symm.trans hclear.1
        show Reached db t₀ calls _ ⟨_, c.calls.set i (.ret (.put db.inserted))⟩
        rw [herr]
        exact hstep .put (puts_ok_iff.trans (iff_of_false nofun hnot)) fun hclear => absurd hclear hnot
      | postgres =>
        have hret : db.inserted = .ok () := by rw [Database.inserted, hdb]
        rw [hret] at hstep
        show Reached db t₀ calls _ ⟨_, c.calls.set i (.ret (.put db.inserted))⟩
        rw [hret]
        exact hstep .put (puts_ok_iff.trans (iff_of_true rfl ⟨hdb, takes_iff.mp hins.1, hraced⟩))
          fun _ order horder => ⟨_, horder.commit hi hspec⟩
    · -- the database does not take the row, or another call has inserted it
      have hfail : Statement.perform db (.insert key v) c.state = (.error .exec, c.state) := if_neg hins
      have hstep := h.snoc (y := .ret (.put (.error .exec))) hi hcall
      rw [hfail] at hstep ⊢
      have hnot : ¬ (Statement.insert key v).Clear db tr i := by
        rintro ⟨-, hfits, hraced⟩
        exact hraced (raced.mpr fun hrow => hins ⟨takes_iff.mpr hfits, hrow⟩)
      exact hstep .put (puts_ok_iff.trans (iff_of_false nofun hnot)) fun hclear => absurd hclear hnot
  | got => cases hp
  | put => cases hp

theorem reached (h : Run (Statement.perform db) (calling db t₀ calls) tr c) : Reached db t₀ calls tr c := by
  induction h with
  | nil => exact reached_nil t₀ calls
  | snoc _ hs ih => exact ih.step hs

end Reached

/-- **Concurrent puts and gets are atomic exactly when every row that is written is one that the database takes, and a
new row is inserted on Postgres, by no other put since the select**: then, and only then, no put fails, and the calls
that have returned could have been performed atomically, in an order that agrees with their real-time order, with the
same results and the same table. -/
theorem put_upsert_iff {t₀ : Kv} {calls : List Call} {tr : SqlTrace} {c : Calls}
    (h : Run (Statement.perform db) (calling db t₀ calls) tr c) :
    (∀ (i : Nat) (k v : Bytes) (r : Result), calls[i]? = some (.put k v) → c.calls[i]? = some (.ret r) →
      r = .put (.ok ())) ∧
        Linearizable (specOf calls) t₀ tr c ↔ Undisturbed db tr := by
  have hr := reached h
  constructor
  · rintro ⟨hok, -⟩
    refine hr.ok.mp fun i e hi => ?_
    obtain ⟨call, hcall, hat⟩ := hr.each i _ hi
    obtain ⟨k, v, rfl⟩ := (hat.returned rfl).2 e rfl
    exact Result.put.inj (hok i k v _ hcall hi)
  · intro hund
    refine ⟨fun i k v r hcall hi => ?_, hr.linear hund⟩
    obtain ⟨call, hcall', hat⟩ := hr.each i _ hi
    obtain rfl := Option.some.inj (hcall.symm.trans hcall')
    obtain ⟨e, rfl⟩ := (hat.returned rfl).1 k v rfl
    rw [hr.ok.mpr hund i e hi]

end Puts

/-- The statement is an insert. -/
def isInsert (x : Nat × Performed Statement.Answer) : Bool :=
  match x.2.1 with
  | .insert _ _ => true
  | _ => false

theorem isInsert_of_inserts {db : Database} {k : Bytes} {x : Nat × Performed Statement.Answer}
    (h : x.2.1.Inserts db k) : isInsert x = true := by
  obtain ⟨v, heq, -⟩ := h
  rw [isInsert, heq]

/-- A Postgres whose rows can be of any size. -/
def roomyPostgres : Database := ⟨.postgres, fun _ _ => true⟩

theorem fits_roomyPostgres (k v : Bytes) : roomyPostgres.Fits k v := ⟨nofun, rfl⟩

/-- A single insert disturbs nobody. -/
theorem undisturbed_of_countP {tr : SqlTrace} (h : tr.countP isInsert ≤ 1) : Undisturbed roomyPostgres tr := by
  rintro a b i ⟨s, r⟩ rfl
  cases s with
  | select k => trivial
  | update k v => exact fits_roomyPostgres k v
  | insert k v =>
    refine ⟨rfl, fits_roomyPostgres k v, ?_⟩
    rintro ⟨a', b', x, rfl, hmem, hins⟩
    have hpos : 0 < b'.countP isInsert := List.countP_pos_iff.mpr ⟨x, hmem, isInsert_of_inserts hins⟩
    simp only [List.countP_append, List.countP_cons, isInsert] at h
    simp only [Bool.false_eq_true, ↓reduceIte] at h
    omega

/-- Two puts of an absent key: both selects find no row, and the second insert fails. -/
theorem puts_collide :
    ¬ ∀ (db : Database) (t₀ : Kv) (calls : List Call) (tr : SqlTrace) (c : Calls),
    Run (Statement.perform db) (calling db t₀ calls) tr c →
    (∀ x ∈ c.calls, ∃ r, x = .ret r) →
    (∀ (i : Nat) (k v : Bytes) (r : Result), calls[i]? = some (.put k v) → c.calls[i]? = some (.ret r) →
      r = .put (.ok ())) ∧
      Linearizable (specOf calls) t₀ tr c := by
  intro h
  obtain ⟨tr, c, hrun, hq⟩ : ∃ tr c, Run (Statement.perform roomyPostgres)
      (calling roomyPostgres ∅ [.put [1] [2], .put [1] [3]]) tr c ∧
      (c.calls.map Code.result == [Result.put (.ok ()), Result.put (.error .exec)].map some) = true :=
    run_of_exec [0, 1, 0, 1] (fun x => x.2.calls.map Code.result ==
      [Result.put (.ok ()), Result.put (.error .exec)].map some) (by decide +kernel)
  have hc : c.calls = [.ret (.put (.ok ())), .ret (.put (.error .exec))] :=
    Code.eq_ret_of_results (eq_of_beq hq)
  obtain ⟨hok, -⟩ := h _ _ _ tr c hrun (by simp [hc])
  cases hok 1 [1] [3] (.put (.error .exec)) rfl (by rw [hc]; rfl)

/-- A put of an absent key and a get, one after the other. -/
theorem put_then_get : ∃ tr c,
    Run (Statement.perform roomyPostgres) (calling roomyPostgres ∅ [.put [1] [2], .get [1]]) tr c ∧
    c.calls = [.ret (.put (.ok ())), .ret (.got (.ok (some [2])))] ∧
      Linearizable (specOf [.put [1] [2], .get [1]]) ∅ tr c := by
  obtain ⟨tr, c, hrun, hq⟩ : ∃ tr c, Run (Statement.perform roomyPostgres)
      (calling roomyPostgres ∅ [.put [1] [2], .get [1]]) tr c ∧
      (c.calls.map Code.result == [Result.put (.ok ()), Result.got (.ok (some [2]))].map some &&
        decide (tr.countP isInsert ≤ 1)) = true :=
    run_of_exec [0, 0, 1] (fun x => x.2.calls.map Code.result ==
      [Result.put (.ok ()), Result.got (.ok (some [2]))].map some &&
      decide (x.1.countP isInsert ≤ 1)) (by decide +kernel)
  rw [Bool.and_eq_true, decide_eq_true_eq] at hq
  exact ⟨tr, c, hrun, Code.eq_ret_of_results (eq_of_beq hq.1),
    ((put_upsert_iff hrun).mpr (undisturbed_of_countP hq.2)).2⟩

/-! ## Scanning -/

/-- The rows of the table, in the order in which the database returns them. -/
structure Lists (rows : List (Bytes × Bytes)) (t : Kv) : Prop where
  nodup : (rows.map Prod.fst).Nodup
  mem : ∀ k v, (k, v) ∈ rows ↔ t.lookup k = some v

/-- The table with these rows. -/
def table (rows : List (Bytes × Bytes)) : Kv := rows.foldr (fun m t => t.insert m.1 m.2) ∅

/-- Any rows with different keys can be the table. -/
theorem lists_table : ∀ {rows : List (Bytes × Bytes)}, (rows.map Prod.fst).Nodup → Lists rows (table rows)
  | [], _ => ⟨List.nodup_nil, fun k v => by simp [table]⟩
  | (k₀, v₀) :: rows, h => by
    obtain ⟨hnew, hrows⟩ := List.nodup_cons.mp h
    have ih := lists_table hrows
    refine ⟨h, fun k v => ?_⟩
    show _ ↔ ((table rows).insert k₀ v₀).lookup k = some v
    rw [List.mem_cons, Prod.mk.injEq]
    by_cases hk : k = k₀
    · subst hk
      have hno : (k, v) ∉ rows := fun hm => hnew (List.mem_map.mpr ⟨_, hm, rfl⟩)
      rw [Finmap.lookup_insert, Option.some.injEq, or_iff_left hno]
      exact ⟨fun h => h.2.symm, fun h => ⟨rfl, h.symm⟩⟩
    · rw [Finmap.lookup_insert_of_ne _ hk, ih.mem, or_iff_right fun h => hk h.1]

/-- The limit of a query is a `u64`; Postgres has no such type, so the library binds it as an `i64`, or panics. -/
def DbBackend.binds (backend : DbBackend) (limit : Nat) : Bool :=
  match backend with
  | .mySql => true
  | .postgres => decide (limit < 2 ^ 63)

/-- The query is limited, and its rows are filtered; `none` when the limit cannot be bound. -/
def scanPrefix (backend : DbBackend) (rows : List (Bytes × Bytes)) (pre : Bytes) (limit : Nat) : Option (List Bytes) :=
  if backend.binds limit then
    let list := rows.take limit
    some ((list.filter fun m => pre.isPrefixOf m.1).map Prod.snd)
  else none

/-- The ordered store finds as many values as there are rows with the prefix, up to the limit. -/
theorem Lists.length_scanPrefix {rows : List (Bytes × Bytes)} {t : Kv} (h : Lists rows t) (pre : Bytes) (limit : Nat) :
    (Seata.scanPrefix t pre limit).length = min limit (rows.countP fun m => pre.isPrefixOf m.1) := by
  have hkeys : (sortedKeys t).Perm (rows.map Prod.fst) := by
    refine (List.perm_ext_iff_of_nodup ((pairwise_sortedKeys t).imp ne_of_lt) h.nodup).mpr fun k => ?_
    rw [mem_sortedKeys, Option.isSome_iff_exists, List.mem_map]
    constructor
    · rintro ⟨v, hv⟩
      exact ⟨(k, v), (h.mem k v).mpr hv, rfl⟩
    · rintro ⟨⟨k', v⟩, hm, rfl⟩
      exact ⟨v, (h.mem k' v).mp hm⟩
  rw [Seata.scanPrefix, length_scan, hkeys.countP_eq, List.countP_map]
  rfl

theorem binds_iff {backend : DbBackend} {limit : Nat} :
    backend.binds limit = true ↔ (backend = .postgres → limit < 2 ^ 63) := by
  cases backend <;> simp [DbBackend.binds]

/-- **Exactly when a scan is complete**: when the limit can be bound, and every row of the query has the prefix, or no
row after them has. -/
theorem sea_scan_iff {rows : List (Bytes × Bytes)} {t : Kv} (h : Lists rows t) (backend : DbBackend) (pre : Bytes)
    (limit : Nat) :
    (∃ rs : List (Bytes × Bytes), rs.Nodup ∧ (∀ m ∈ rs, m ∈ rows ∧ pre.isPrefixOf m.1 = true) ∧
        scanPrefix backend rows pre limit = some (rs.map Prod.snd) ∧
        rs.length = min limit (rows.countP fun m => pre.isPrefixOf m.1) ∧
        rs.length = (Seata.scanPrefix t pre limit).length) ↔
      (backend = .postgres → limit < 2 ^ 63) ∧
        ((∀ m ∈ rows.take limit, pre.isPrefixOf m.1 = true) ∨ ∀ m ∈ rows.drop limit, pre.isPrefixOf m.1 = false) := by
  rw [← length_filter_take_iff rows (fun m => pre.isPrefixOf m.1) limit, h.length_scanPrefix, ← binds_iff, scanPrefix]
  constructor
  · rintro ⟨rs, -, -, heq, hlen, -⟩
    split at heq
    · rename_i hbinds
      have hvalues := congrArg List.length (Option.some.inj heq)
      rw [List.length_map, List.length_map] at hvalues
      exact ⟨hbinds, hvalues.trans hlen⟩
    · cases heq
  · rintro ⟨hbinds, hlen⟩
    refine ⟨(rows.take limit).filter fun m => pre.isPrefixOf m.1, ?_, fun m hm => ?_, if_pos hbinds, hlen, hlen⟩
    · exact ((h.nodup.of_map Prod.fst).sublist (List.take_sublist limit rows)).filter _
    · obtain ⟨hm, hpre⟩ := List.mem_filter.mp hm
      exact ⟨List.mem_of_mem_take hm, hpre⟩

/-- The row of a mark before the row of a transaction. -/
def markFirst : List (Bytes × Bytes) := [(asBytes (Barrier.key "g" "b" .cancel), []), (txnKey "g", [7])]

theorem lists_markFirst : Lists markFirst (table markFirst) := lists_table (by decide +kernel)

/-- A scan for one transaction gets the row of the mark. -/
theorem mark_hides_transaction :
    ¬ ∀ (rows : List (Bytes × Bytes)) (t : Kv), Lists rows t →
    ∀ (backend : DbBackend) (pre : Bytes) (limit : Nat),
    ∃ rs : List (Bytes × Bytes), rs.Nodup ∧ (∀ m ∈ rs, m ∈ rows ∧ pre.isPrefixOf m.1 = true) ∧
      scanPrefix backend rows pre limit = some (rs.map Prod.snd) ∧
      rs.length = min limit (rows.countP fun m => pre.isPrefixOf m.1) ∧
      rs.length = (Seata.scanPrefix t pre limit).length := by
  intro h
  obtain ⟨rs, -, -, heq, hlen, -⟩ := h markFirst (table markFirst) lists_markFirst .mySql (asBytes "gid:") 1
  have hout : scanPrefix .mySql markFirst (asBytes "gid:") 1 = some [] := by decide +kernel
  have hcount : min 1 (markFirst.countP fun m => (asBytes "gid:").isPrefixOf m.1) = 1 := by decide +kernel
  have hnil : [] = rs.map Prod.snd := Option.some.inj (hout.symm.trans heq)
  have hzero := congrArg List.length hnil
  rw [List.length_map, hlen, hcount] at hzero
  cases hzero

/-- A scan that reaches to the end of the table. -/
theorem sea_scan_markFirst : ∃ rs : List (Bytes × Bytes),
    scanPrefix .postgres markFirst (asBytes "gid:") 2 = some (rs.map Prod.snd) ∧
      rs.length = (Seata.scanPrefix (table markFirst) (asBytes "gid:") 2).length := by
  obtain ⟨rs, -, -, heq, -, hlen⟩ := (sea_scan_iff lists_markFirst .postgres (asBytes "gid:") 2).mpr
    ⟨fun _ => by decide, .inr nofun⟩
  exact ⟨rs, heq, hlen⟩

end SeaKv

end Seata
