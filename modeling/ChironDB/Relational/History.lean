/-
# Interactive transactions and their savepoints

The `History` of `chirondb-core/src/relational/history.rs` and the statements that
`execute_interactive_inner` of `relational.rs` runs on it.  A session keeps the statements it has
executed and, for each savepoint, how many there were.  `SAVEPOINT`, `ROLLBACK TO` and `RELEASE`
push and cut these two lists; any other statement is pushed, executed together with all before it,
and cut off again when it fails.  What the lists occupy is charged to a pool: growth asks for it
before it happens, and after a cut the charge is set to what is left, which an assertion checks.

What the session is for is stated by `Spec`: each live savepoint remembers the history itself.

The tokenizer, cancellation, the memory pool, the allocator and the execution of the statements
answer as they like (`World`).  The checks a request goes through before its session is found are
one answer too.  A reservation of a vector gives the capacity asked for, as the standard library's
does.  A panic, here of an assertion or an `expect`, is `none`.
-/

import ChironDB.Relational.Expr

namespace ChironDB.Relational.Interactive

open List

/-! ### Vectors and machine words -/

/-- A `Vec` and its capacity. -/
structure Vec (α : Type) where
  items : List α := []
  capacity : ℕ := 0
  fits : items.length ≤ capacity := by simp

namespace Vec

variable {α : Type}

/-- `Vec::push`, which grows a full vector. -/
def push (values : Vec α) (value : α) : Vec α where
  items := values.items ++ [value]
  capacity := if values.items.length < values.capacity then values.capacity
    else max (2 * values.capacity) 4
  fits := by
    have hfits := values.fits
    simp only [length_append, length_singleton]
    split <;> omega

/-- `Vec::truncate`. -/
def truncate (values : Vec α) (count : ℕ) : Vec α where
  items := values.items.take count
  capacity := values.capacity
  fits := (length_take_le' count values.items).trans values.fits

/-- `Vec::try_reserve_exact`, for this capacity, where memory is given. -/
def reserveExact (values : Vec α) (capacity : ℕ) : Vec α where
  items := values.items
  capacity := max values.capacity capacity
  fits := values.fits.trans (le_max_left _ _)

/-- `truncate`, and the buffer is given back when nothing is left. -/
def cut (values : Vec α) (count : ℕ) : Vec α :=
  if (values.truncate count).items = [] then {} else values.truncate count

@[simp] theorem items_push (values : Vec α) (value : α) :
    (values.push value).items = values.items ++ [value] := rfl

@[simp] theorem items_reserveExact (values : Vec α) (capacity : ℕ) :
    (values.reserveExact capacity).items = values.items := rfl

@[simp] theorem items_cut (values : Vec α) (count : ℕ) :
    (values.cut count).items = values.items.take count := by
  rw [cut]
  split
  · next hnil => exact hnil.symm
  · rfl

theorem capacity_cut_le (values : Vec α) (count : ℕ) :
    (values.cut count).capacity ≤ values.capacity := by
  rw [cut]
  split
  · exact Nat.zero_le _
  · exact le_rfl

end Vec

/-- `u64::MAX`. -/
def maxU64 : ℕ := 2 ^ 64 - 1

/-- `u64::saturating_add`. -/
def saturatingAdd (a b : ℕ) : ℕ := min (a + b) maxU64

/-- `u64::saturating_mul`. -/
def saturatingMul (a b : ℕ) : ℕ := min (a * b) maxU64

/-- Sizes of the types whose vectors are charged. -/
structure Layout where
  statement : ℕ
  savepoint : ℕ
  value : ℕ

/-! ### Statements -/

/-- A `String` and the capacity of its buffer. -/
structure OwnedString where
  text : String
  capacity : ℕ
  deriving DecidableEq

/-- A parameter and its `value_heap_bytes`, which are of the capacities of its buffers. -/
structure Parameter where
  value : RelationalValue
  heapBytes : ℕ
  deriving DecidableEq

/-- `SqlStatementRequest`. -/
structure SqlStatementRequest where
  sql : OwnedString
  parameters : List Parameter := []
  parametersCapacity : ℕ := 0
  deriving DecidableEq

/-- `statement_bytes`. -/
def statementBytes (layout : Layout) (statement : SqlStatementRequest) : ℕ :=
  statement.parameters.foldl (fun total value => saturatingAdd total value.heapBytes)
    (saturatingAdd statement.sql.capacity (saturatingMul statement.parametersCapacity layout.value))

/-- `InteractiveControl`. -/
inductive InteractiveControl
  | savepoint (name : String)
  | rollbackTo (name : String)
  | release (name : String)
  deriving DecidableEq

/-- `sqlparser`'s tokens, as far as they are told apart here. -/
inductive Token
  | word (value : String)
  | whitespace
  | semiColon
  | other
  deriving DecidableEq

/-- `tokenize`, of `sqlparser`. -/
abbrev Tokenizer := String → Result (List Token)

/-- `token_word_eq`. -/
def tokenWordEq (token : Token) (expected : String) : Bool :=
  match token with
  | .word value => toAsciiLowercase value = expected
  | _ => false

/-- The name in `parse_interactive_control`. -/
def savepointName : Token → Result String
  | .word value => .ok (normalizeIdent value)
  | _ => .error (.invalidRequest "savepoint name must be an identifier")

/-- `parse_interactive_control`. -/
def parseInteractiveControl (tokenize : Tokenizer) (sql : String) :
    Result (Option InteractiveControl) := do
  let tokens ← tokenize sql
  let tokens := tokens.filter (· ≠ .whitespace)
  let tokens := if tokens.getLast? = some .semiColon then tokens.dropLast else tokens
  match tokens with
  | [first, value] =>
    if tokenWordEq first "savepoint" then return some (.savepoint (← savepointName value))
    else if tokenWordEq first "release" then return some (.release (← savepointName value))
    else return none
  | [first, second, value] =>
    if tokenWordEq first "rollback" && tokenWordEq second "to" then
      return some (.rollbackTo (← savepointName value))
    else if tokenWordEq first "release" && tokenWordEq second "savepoint" then
      return some (.release (← savepointName value))
    else return none
  | [first, second, third, value] =>
    if tokenWordEq first "rollback" && tokenWordEq second "to" && tokenWordEq third "savepoint" then
      return some (.rollbackTo (← savepointName value))
    else return none
  | _ => return none

/-! ### The history -/

/-- What the world answers while one statement is executed. -/
structure World (R : Type) where
  canceled : Option GaussError := none
  nameCapacity : ℕ := 0
  growthCanceled : Option GaussError := none
  refused : Option GaussError := none
  unallocated : Option String := none
  copyCanceled : Option GaussError := none
  copyRefused : Option GaussError := none
  /-- The last result of `prepare_execution`, of which there is one for each statement. -/
  execution : List SqlStatementRequest → Result R

/-- A call that may fail. -/
def check : Option GaussError → Result Unit
  | none => .ok ()
  | some error => .error error

/-- `expect`. -/
def expect {α : Type} : Result α → Option α
  | .ok value => some value
  | .error _ => none

/-- `Charge::prepare` of a lease that nothing else shares: only growth asks the pool. -/
def prepare (charge bytes : ℕ) (refused : Option GaussError) : Result ℕ := do
  if charge < bytes then check refused
  return bytes

/-- `exhausted`. -/
def exhausted : GaussError :=
  .resourceExhausted "SQL transaction history budget exhausted; release savepoints or roll back"

/-- `MAX_STATEMENTS_PER_REQUEST`. -/
def maxStatementsPerRequest : ℕ := 32

/-- `History`. -/
structure History where
  statements : Vec SqlStatementRequest
  savepoints : Vec (OwnedString × ℕ)
  limit : ℕ
  charge : ℕ

variable {α R : Type} (layout : Layout)

/-- `History::new`. -/
def History.new (sqlRequestWorkingSetBytes : UInt64) (refused : Option GaussError) :
    Result History := do
  let limit := max (sqlRequestWorkingSetBytes.toNat / 4) 1
  if limit < 4096 then throw exhausted
  let charge ← prepare 0 4096 refused
  return { statements := {}, savepoints := {}, limit := limit, charge := charge }

/-- `admit_growth`; what is left of the vector and of its charge is returned too. -/
def admitGrowth (values : Vec α) (charge limit size payload : ℕ) (world : World R) :
    Option (Result Unit × Vec α × ℕ) :=
  match check world.growthCanceled with
  | .error error => some (.error error, values, charge)
  | .ok () =>
    let full := values.items.length = values.capacity
    if full ∧ maxU64 < 2 * values.capacity then some (.error exhausted, values, charge)
    else
      let capacity := if full then max (2 * values.capacity) 4 else values.capacity
      let bytes := saturatingAdd
        (saturatingAdd (saturatingMul (capacity - values.capacity) size) payload) charge
      if limit < bytes then some (.error exhausted, values, charge)
      else match prepare charge bytes world.refused with
        | .error error => some (.error error, values, charge)
        | .ok prepared =>
          match world.unallocated with
          | some error => (expect (prepare prepared charge world.refused)).map fun charge =>
            (.error (.resourceExhausted
              ("cannot allocate SQL transaction history: " ++ error)), values, charge)
          | none => some (.ok (), values.reserveExact capacity, prepared)

namespace History

/-- `push_statement`. -/
def pushStatement (history : History) (statement : SqlStatementRequest) (world : World R) :
    Option (Result Unit × History) :=
  if maxStatementsPerRequest ≤ history.statements.items.length then
    some (.error exhausted, history)
  else
    (admitGrowth history.statements history.charge history.limit layout.statement
      (statementBytes layout statement) world).map fun
      | (.ok (), statements, charge) =>
        (.ok (), { history with statements := statements.push statement, charge := charge })
      | (.error error, statements, charge) =>
        (.error error, { history with statements := statements, charge := charge })

/-- `push_savepoint`. -/
def pushSavepoint (history : History) (name : OwnedString) (world : World R) :
    Option (Result Unit × History) :=
  (admitGrowth history.savepoints history.charge history.limit layout.savepoint
    name.capacity world).map fun
    | (.ok (), savepoints, charge) =>
      (.ok (), { history with
        savepoints := savepoints.push (name, history.statements.items.length)
        charge := charge })
    | (.error error, savepoints, charge) =>
      (.error error, { history with savepoints := savepoints, charge := charge })

/-- What `release_unused` finds of one vector: its buffer and what its elements own. -/
def occupied (values : Vec α) (size : ℕ) (owned : α → ℕ) : ℕ :=
  values.items.foldl (fun total value => saturatingAdd total (owned value))
    (values.capacity * size % 2 ^ 64)

/-- `release_unused`. -/
def releaseUnused (history : History) (world : World R) : Option History :=
  let retained := saturatingAdd
    (saturatingAdd 4096 (occupied history.statements layout.statement (statementBytes layout)))
    (occupied history.savepoints layout.savepoint fun savepoint => savepoint.1.capacity)
  if retained ≤ history.charge then
    (expect (prepare history.charge retained world.refused)).map fun charge =>
      { history with charge := charge }
  else none

/-- `truncate_statements`. -/
def truncateStatements (history : History) (count : ℕ) (world : World R) : Option History :=
  releaseUnused layout { history with statements := history.statements.cut count } world

/-- `truncate_savepoints`. -/
def truncateSavepoints (history : History) (count : ℕ) (world : World R) : Option History :=
  releaseUnused layout { history with savepoints := history.savepoints.cut count } world

/-- `copy_request`: the statements to replay. -/
def copyRequest (history : History) (retryId : Option String) (world : World R) :
    Result (List SqlStatementRequest) := do
  check world.copyCanceled
  let bytes := history.statements.items.foldl
    (fun total statement => saturatingAdd total (statementBytes layout statement))
    (saturatingAdd (saturatingAdd 4096 ((retryId.map String.utf8ByteSize).getD 0))
      (history.statements.items.length * layout.statement % 2 ^ 64))
  if history.limit < saturatingAdd bytes history.charge then throw exhausted
  let _ ← prepare 0 bytes world.copyRefused
  return history.statements.items

end History

/-! ### A session -/

/-- `InteractiveTransaction`. -/
structure Session where
  history : History
  aborted : Bool := false

/-- `SqlResult`. -/
inductive SqlResult (R : Type)
  | definition (affectedObjects : ℕ)
  | prepared (result : R)

/-- `Iterator::rposition`: searches from the right. -/
def rposition (p : α → Bool) (values : List α) : Option ℕ :=
  match values.reverse.dropWhile (!p ·) with
  | [] => none
  | _ :: before => some before.length

/-- The index of the savepoint with this name. -/
def savepointIndex (history : History) (name : String) : Result ℕ :=
  match rposition (·.1.text = name) history.savepoints.items with
  | some index => .ok index
  | none => .error (.invalidRequest ("savepoint " ++ name ++ " does not exist"))

/-- A statement that is not about savepoints. -/
def executePlain (retryId : Option String) (session : Session) (statement : SqlStatementRequest)
    (world : World R) : Option (Result (SqlResult R) × Session) :=
  let previousCount := session.history.statements.items.length
  if maxStatementsPerRequest ≤ previousCount then
    some (.error (.resourceExhausted ("interactive transaction exceeds " ++
      toString maxStatementsPerRequest ++ " statements")), { session with aborted := true })
  else do
    let (pushed, history) ← session.history.pushStatement layout statement world
    let execution := do
      pushed
      let replay ← history.copyRequest layout retryId world
      world.execution replay
    match execution with
    | .ok result => return (.ok (.prepared result), { session with history := history })
    | .error error =>
      let history ← history.truncateStatements layout previousCount world
      return (.error error, ⟨history, true⟩)

/-- `matches!(control, Some(InteractiveControl::RollbackTo(_)))`. -/
def isRollbackTo : Option InteractiveControl → Bool
  | some (.rollbackTo _) => true
  | _ => false

/-- What the next statement is, if the session may execute it. -/
def nextControl (tokenize : Tokenizer) (handle : String) (session : Session)
    (statement : SqlStatementRequest) (world : World R) : Result (Option InteractiveControl) := do
  check world.canceled
  let control ← parseInteractiveControl tokenize statement.sql.text
  if session.aborted ∧ ¬isRollbackTo control then
    throw (.invalidRequest ("interactive transaction " ++ handle ++
      " is aborted; use ROLLBACK TO SAVEPOINT or roll it back"))
  return control

/-- `SAVEPOINT`. -/
def executeSavepoint (name : String) (session : Session) (statement : SqlStatementRequest)
    (world : World R) : Option (Result (SqlResult R) × Session) :=
  if statement.parameters ≠ [] then
    some (.error (.invalidRequest "SAVEPOINT does not accept parameters"), session)
  else
    (session.history.pushSavepoint layout ⟨name, world.nameCapacity⟩ world).map fun
      | (.ok (), history) => (.ok (.definition 0), { session with history := history })
      | (.error error, history) => (.error error, ⟨history, true⟩)

/-- `ROLLBACK TO`. -/
def executeRollbackTo (name : String) (session : Session) (statement : SqlStatementRequest)
    (world : World R) : Option (Result (SqlResult R) × Session) :=
  if statement.parameters ≠ [] then
    some (.error (.invalidRequest "ROLLBACK TO SAVEPOINT does not accept parameters"), session)
  else match savepointIndex session.history name with
    | .error error => some (.error error, session)
    | .ok index => do
      let statementCount ← session.history.savepoints.items[index]?.map Prod.snd
      let history ← session.history.truncateStatements layout statementCount world
      let history ← history.truncateSavepoints layout (index + 1) world
      return (.ok (.definition 0), ⟨history, false⟩)

/-- `RELEASE`. -/
def executeRelease (name : String) (session : Session) (statement : SqlStatementRequest)
    (world : World R) : Option (Result (SqlResult R) × Session) :=
  if statement.parameters ≠ [] then
    some (.error (.invalidRequest "RELEASE SAVEPOINT does not accept parameters"), session)
  else match savepointIndex session.history name with
    | .error error => some (.error error, session)
    | .ok index => do
      let history ← session.history.truncateSavepoints layout index world
      return (.ok (.definition 0), { session with history := history })

/-- One statement of `execute_interactive_inner`. -/
def executeStatement (tokenize : Tokenizer) (handle : String)
    (retryId : Option String) (session : Session) (statement : SqlStatementRequest)
    (world : World R) : Option (Result (SqlResult R) × Session) :=
  match nextControl tokenize handle session statement world with
  | .error error => some (.error error, session)
  | .ok (some (.savepoint name)) => executeSavepoint layout name session statement world
  | .ok (some (.rollbackTo name)) => executeRollbackTo layout name session statement world
  | .ok (some (.release name)) => executeRelease layout name session statement world
  | .ok none => executePlain layout retryId session statement world

/-- The loop of `execute_interactive_inner`, which ends at the first statement that fails. -/
def executeStatements (tokenize : Tokenizer) (handle : String)
    (retryId : Option String) (session : Session) :
    List (SqlStatementRequest × World R) → Option (List (SqlResult R) × Option GaussError × Session)
  | [] => some ([], none, session)
  | (statement, world) :: rest => do
    let (result, session) ←
      executeStatement layout tokenize handle retryId session statement world
    match result with
    | .error error => return ([], some error, session)
    | .ok result =>
      let (results, error, session) ←
        executeStatements tokenize handle retryId session rest
      return (result :: results, error, session)

/-- A call of `execute_interactive`, with what it meets on its way to the session (`refused` before
its statements are counted, `unavailable` behind that) and at the end (`unreserved`). -/
structure Request (R : Type) where
  statements : List (SqlStatementRequest × World R)
  idempotencyKey : Option String := none
  retryId : Option String := none
  refused : Option GaussError := none
  unavailable : Option GaussError := none
  unreserved : Option GaussError := none

/-- What `execute_interactive_inner` checks before it takes up the first statement. -/
def checkRequest (request : Request R) : Result Unit := do
  if request.idempotencyKey.isSome then
    throw (.invalidRequest ("interactive statements do not accept idempotency_key; " ++
      "reconcile their commit instead"))
  check request.refused
  if request.statements = [] then
    throw (.invalidRequest "SQL request must contain at least one statement")
  if maxStatementsPerRequest < request.statements.length then
    throw (.resourceExhausted ("SQL request has " ++ toString request.statements.length ++
      " statements; maximum is " ++ toString maxStatementsPerRequest))
  check request.unavailable

/-- `execute_interactive_inner`: the results of the statements it has executed, and the error it
returns instead of them, if any. -/
def executeInteractive (tokenize : Tokenizer) (handle : String)
    (session : Session) (request : Request R) :
    Option (List (SqlResult R) × Option GaussError × Session) :=
  match checkRequest request with
  | .error error => some ([], some error, session)
  | .ok () => do
    let (results, error, session) ←
      executeStatements layout tokenize handle request.retryId session request.statements
    match error, request.unreserved with
    | none, some error => return (results, some error, { session with aborted := true })
    | error, _ => return (results, error, session)

/-- A session from call to call, and the statements it has executed with a result. -/
def run (tokenize : Tokenizer) (handle : String) (session : Session) :
    List (Request R) → Option (Session × List SqlStatementRequest)
  | [] => some (session, [])
  | request :: rest => do
    let (results, _, session) ← executeInteractive layout tokenize handle session request
    let (session, executed) ← run tokenize handle session rest
    return (session, (request.statements.map Prod.fst).take results.length ++ executed)

/-! ### What savepoints are for -/

/-- A transaction and its live savepoints, the latest first, with the history each was made at. -/
structure Spec where
  history : List SqlStatementRequest := []
  savepoints : List (String × List SqlStatementRequest) := []

variable {spec : Spec}

namespace Spec

/-- What a statement that is executed does: a savepoint remembers the history, and the latest one
of a name brings its history back, or goes; with the savepoints made behind it. -/
def apply (tokenize : Tokenizer) (spec : Spec) (statement : SqlStatementRequest) : Option Spec :=
  match parseInteractiveControl tokenize statement.sql.text with
  | .error _ => none
  | .ok (some (.savepoint name)) =>
    some { spec with savepoints := (name, spec.history) :: spec.savepoints }
  | .ok (some (.rollbackTo name)) =>
    match spec.savepoints.dropWhile (·.1 ≠ name) with
    | [] => none
    | saved :: before => some ⟨saved.2, saved :: before⟩
  | .ok (some (.release name)) =>
    match spec.savepoints.dropWhile (·.1 ≠ name) with
    | [] => none
    | _ :: before => some { spec with savepoints := before }
  | .ok none => some { spec with history := spec.history ++ [statement] }

/-- Each history is a beginning of the ones after it. -/
def Nested (spec : Spec) : Prop :=
  (spec.history :: spec.savepoints.map Prod.snd).Pairwise fun later earlier => earlier <+: later

theorem Nested.prefix_of_mem (h : spec.Nested) {saved : String × List SqlStatementRequest}
    (hmem : saved ∈ spec.savepoints) : saved.2 <+: spec.history :=
  (pairwise_cons.1 h).1 _ (mem_map_of_mem hmem)

theorem Nested.apply {tokenize : Tokenizer} {spec' : Spec} {statement : SqlStatementRequest}
    (h : spec.Nested) (happly : spec.apply tokenize statement = some spec') : spec'.Nested := by
  have hdrop : ∀ {name saved before}, spec.savepoints.dropWhile (·.1 ≠ name) = saved :: before →
      ((saved :: before).map Prod.snd).Sublist (spec.savepoints.map Prod.snd) := fun hsaved =>
    hsaved ▸ (dropWhile_sublist _).map Prod.snd
  obtain ⟨hhistory, hsavepoints⟩ := pairwise_cons.1 h
  rw [Spec.apply] at happly
  split at happly
  · cases happly
  · cases happly
    refine pairwise_cons.2 ⟨?_, h⟩
    simpa using hhistory
  · split at happly
    · cases happly
    · next hsaved =>
      cases happly
      have hpairwise := hsavepoints.sublist (hdrop hsaved)
      exact pairwise_cons.2 ⟨forall_mem_cons.2 ⟨prefix_refl _, (pairwise_cons.1 hpairwise).1⟩,
        hpairwise⟩
  · split at happly
    · cases happly
    · next hsaved =>
      cases happly
      exact h.sublist ((sublist_of_cons_sublist (hdrop hsaved)).cons_cons _)
  · cases happly
    refine pairwise_cons.2 ⟨fun earlier hmem => ?_, hsavepoints⟩
    exact (hhistory earlier hmem).trans (prefix_append _ _)

end Spec

/-! ### The charge -/

/-- What a vector takes: its buffer and what its elements own. -/
def Vec.cost (values : Vec α) (size : ℕ) (owned : α → ℕ) : ℕ :=
  values.capacity * size + (values.items.map owned).sum

variable {owned : α → ℕ}

theorem foldl_saturatingAdd {values : List α} {total : ℕ}
    (h : total + (values.map owned).sum ≤ maxU64) :
    values.foldl (fun total value => saturatingAdd total (owned value)) total =
      total + (values.map owned).sum := by
  induction values generalizing total with
  | nil => rfl
  | cons value values ih =>
    rw [map_cons, sum_cons, ← add_assoc] at h ⊢
    have hfirst : saturatingAdd total (owned value) = total + owned value :=
      min_eq_left (le_of_add_le_left h)
    rw [foldl_cons, hfirst, ih h]

theorem occupied_eq {values : Vec α} {size : ℕ} (h : values.cost size owned ≤ maxU64) :
    History.occupied values size owned = values.cost size owned := by
  have hbuffer : values.capacity * size < 2 ^ 64 := by
    have hle : values.capacity * size ≤ maxU64 := le_of_add_le_left h
    unfold maxU64 at hle
    omega
  rw [History.occupied, Nat.mod_eq_of_lt hbuffer, foldl_saturatingAdd h, Vec.cost]

variable {bytes : ℕ}

theorem prepare_of_le {charge : ℕ} (h : bytes ≤ charge) (refused : Option GaussError) :
    prepare charge bytes refused = .ok bytes := by
  rw [prepare, if_neg (not_lt.2 h)]
  rfl

variable {refused : Option GaussError}

theorem prepare_eq_ok {charge charge' : ℕ} (h : prepare charge bytes refused = .ok charge') :
    charge' = bytes := by
  rw [prepare] at h
  split at h
  · obtain ⟨_, -, hok⟩ := bind_eq_ok.1 h
    exact (Except.ok.inj hok).symm
  · exact (Except.ok.inj h).symm

theorem cost_cut_le (values : Vec α) (count size : ℕ) (owned : α → ℕ) :
    (values.cut count).cost size owned ≤ values.cost size owned := by
  have hsum : ((values.items.take count).map owned).sum ≤ (values.items.map owned).sum := by
    exact ((take_sublist _ _).map owned).sum_le_sum fun _ _ => Nat.zero_le _
  rw [Vec.cost, Vec.cost, Vec.items_cut]
  gcongr
  exact values.capacity_cut_le count

theorem cost_push {values : Vec α} (hroom : values.items.length < values.capacity) (value : α)
    (size : ℕ) (owned : α → ℕ) :
    (values.push value).cost size owned = values.cost size owned + owned value := by
  simp [Vec.cost, Vec.push, hroom, add_assoc]

variable {history : History}

namespace History

/-- What the history takes. -/
def retained (history : History) : ℕ :=
  4096 + history.statements.cost layout.statement (statementBytes layout) +
    history.savepoints.cost layout.savepoint fun savepoint => savepoint.1.capacity

/-- The charge is what the history takes, and within the limit. -/
structure Charged (history : History) : Prop where
  exact : history.charge = history.retained layout
  le : history.charge ≤ history.limit
  limit : history.limit < maxU64

variable {layout}

/-- **The assertion holds** where the history has only shrunk. -/
theorem releaseUnused_eq {world : World R} (hle : history.retained layout ≤ history.charge)
    (hsmall : history.charge ≤ maxU64) :
    history.releaseUnused layout world =
      some { history with charge := history.retained layout } := by
  have hretained := hle.trans hsmall
  have hstatements := le_of_add_le_left hretained
  have hsavepoints := le_of_add_le_right hretained
  have heq : saturatingAdd
      (saturatingAdd 4096 (occupied history.statements layout.statement (statementBytes layout)))
      (occupied history.savepoints layout.savepoint fun s => s.1.capacity) =
        history.retained layout := by
    rw [occupied_eq (le_of_add_le_right hstatements), occupied_eq hsavepoints, saturatingAdd,
      saturatingAdd, min_eq_left hstatements]
    exact min_eq_left hretained
  rw [releaseUnused]
  simp only [heq, if_pos hle, prepare_of_le hle]
  rfl

end History

/-- **Growth** is charged exactly, or nothing changes. -/
theorem admitGrowth_spec (values : Vec α) {charge limit : ℕ} (size payload : ℕ) (world : World R)
    (hlimit : limit < maxU64) :
    (∃ error, admitGrowth values charge limit size payload world =
      some (.error error, values, charge)) ∨
    ∃ values' : Vec α, ∃ charge' ≤ limit, values'.items = values.items ∧
      values'.items.length < values'.capacity ∧
      charge' + values.capacity * size = charge + values'.capacity * size + payload ∧
      admitGrowth values charge limit size payload world = some (.ok (), values', charge') := by
  unfold admitGrowth
  rcases check world.growthCanceled with error | _
  · exact .inl ⟨error, rfl⟩
  dsimp only
  split
  · exact .inl ⟨_, rfl⟩
  generalize hcapacity : (if values.items.length = values.capacity then
    max (2 * values.capacity) 4 else values.capacity) = capacity
  have hroom : values.items.length < capacity ∧ values.capacity ≤ capacity := by
    have hfits := values.fits
    split at hcapacity <;> omega
  split
  · exact .inl ⟨_, rfl⟩
  next hwithin =>
    have hgrown : (capacity - values.capacity) * size + values.capacity * size =
        capacity * size := by
      rw [← add_mul, Nat.sub_add_cancel hroom.2]
    -- a sum that saturates is not within the limit
    have hbytes : saturatingAdd
        (saturatingAdd (saturatingMul (capacity - values.capacity) size) payload) charge =
        (capacity - values.capacity) * size + payload + charge := by
      simp only [saturatingAdd, saturatingMul] at hwithin ⊢
      omega
    rw [hbytes] at hwithin ⊢
    rcases hprepare : prepare charge ((capacity - values.capacity) * size + payload + charge)
      world.refused with error | prepared
    · exact .inl ⟨error, rfl⟩
    · obtain rfl := prepare_eq_ok hprepare
      dsimp only
      rcases world.unallocated with _ | error
      · refine .inr ⟨values.reserveExact capacity, _, not_lt.1 hwithin, rfl, ?_, ?_, rfl⟩
        · exact lt_max_of_lt_right hroom.1
        · have hmax : (values.reserveExact capacity).capacity = capacity := max_eq_right hroom.2
          rw [hmax]
          omega
      · rw [prepare_of_le (by omega)]
        exact .inl ⟨_, rfl⟩

/-! ### Savepoints are positions of histories -/

variable {index : ℕ}

theorem rposition_eq_some {p : α → Bool} {values : List α} (h : rposition p values = some index) :
    ∃ older last newer, values = older ++ last :: newer ∧ older.length = index ∧
      values.reverse.dropWhile (!p ·) = last :: older.reverse := by
  rw [rposition] at h
  split at h
  · cases h
  · next last before hdrop =>
    cases h
    obtain ⟨newer, hnewer⟩ := dropWhile_suffix (l := values.reverse) (!p ·)
    rw [hdrop] at hnewer
    refine ⟨before.reverse, last, newer.reverse, ?_, length_reverse, by simpa using hdrop⟩
    rw [← reverse_reverse values, ← hnewer]
    simp

/-- What a savepoint records, and what there is to record of it. -/
def recorded (saved : OwnedString × ℕ) : String × ℕ := (saved.1.text, saved.2)

@[inherit_doc recorded]
def counted (saved : String × List SqlStatementRequest) : String × ℕ := (saved.1, saved.2.length)

/-- The history is that of the abstract transaction, and its savepoints tell how long theirs are. -/
structure Represents (history : History) (spec : Spec) : Prop where
  nested : spec.Nested
  statements : history.statements.items = spec.history
  savepoints : history.savepoints.items.reverse.map recorded = spec.savepoints.map counted

variable {name : String}

/-- The savepoint that is found is the latest of its name. -/
theorem Represents.savepointIndex (h : Represents history spec)
    (hindex : savepointIndex history name = .ok index) :
    ∃ saved before, spec.savepoints.dropWhile (·.1 ≠ name) = saved :: before ∧
      history.savepoints.items[index]?.map Prod.snd = some saved.2.length ∧
      (history.savepoints.items.take (index + 1)).reverse.map recorded =
        (saved :: before).map counted ∧
      (history.savepoints.items.take index).reverse.map recorded = before.map counted := by
  rw [Interactive.savepointIndex] at hindex
  split at hindex
  · next hposition =>
    cases hindex
    obtain ⟨older, last, newer, hitems, rfl, hdrop⟩ := rposition_eq_some hposition
    have hmap := congrArg (List.dropWhile (·.1 ≠ name)) h.savepoints
    have hname : (fun saved : String × ℕ => decide (saved.1 ≠ name)) ∘ recorded =
        fun saved => !decide (saved.1.text = name) := by
      funext saved
      by_cases heq : saved.1.text = name <;> simp [recorded, heq]
    rw [dropWhile_map, dropWhile_map, hname, hdrop] at hmap
    obtain ⟨saved, before, hsaved, hlast, holder⟩ := map_eq_cons_iff.1 hmap.symm
    refine ⟨saved, before, hsaved, ?_, ?_, ?_⟩
    · have hcount : saved.2.length = last.2 := congrArg Prod.snd hlast
      simp [hitems, hcount]
    · have htake : history.savepoints.items.take (older.length + 1) = older ++ [last] := by
        rw [hitems, append_cons]
        exact take_left' (by simp)
      simp [htake, hlast, holder]
    · simp [hitems, holder]
  · cases hindex

/-! ### The session follows the abstract transaction -/

section Simulation

variable {layout} {tokenize : Tokenizer} {handle : String} {retryId : Option String}
  {session : Session} {statement : SqlStatementRequest} {world : World R}

section

variable (h : history.Charged layout)
include h

/-- **A savepoint is recorded**, or the history stays. -/
theorem pushSavepoint_spec (name : OwnedString) (world : World R) :
    ∃ result history', history.pushSavepoint layout name world = some (result, history') ∧
      history'.Charged layout ∧ history'.statements = history.statements ∧
      ((∃ error, result = .error error) ∧ history'.savepoints = history.savepoints ∨
        result = .ok () ∧ history'.savepoints.items =
          history.savepoints.items ++ [(name, history.statements.items.length)]) := by
  rw [History.pushSavepoint]
  rcases admitGrowth_spec history.savepoints layout.savepoint name.capacity world h.limit with
    ⟨error, hgrowth⟩ | ⟨values, charge, hlimit, hitems, hroom, hcharge, hgrowth⟩
  · rw [hgrowth]
    exact ⟨_, _, rfl, h, rfl, .inl ⟨⟨error, rfl⟩, rfl⟩⟩
  · rw [hgrowth]
    refine ⟨_, _, rfl, ⟨?_, hlimit, h.limit⟩, rfl, .inr ⟨rfl, by simp [hitems]⟩⟩
    have hcost := cost_push hroom (name, history.statements.items.length) layout.savepoint
      fun saved => saved.1.capacity
    have hexact := h.exact
    simp only [History.retained, hcost] at hexact ⊢
    simp only [Vec.cost, hitems] at hexact ⊢
    omega

/-- **A statement is recorded**, or the history stays. -/
theorem pushStatement_spec (statement : SqlStatementRequest) (world : World R) :
    ∃ result history', history.pushStatement layout statement world = some (result, history') ∧
      history'.Charged layout ∧ history'.savepoints = history.savepoints ∧
      ((∃ error, result = .error error) ∧ history'.statements = history.statements ∨
        result = .ok () ∧ history'.statements.items = history.statements.items ++ [statement]) := by
  rw [History.pushStatement]
  split
  · exact ⟨_, _, rfl, h, rfl, .inl ⟨⟨_, rfl⟩, rfl⟩⟩
  rcases admitGrowth_spec history.statements layout.statement (statementBytes layout statement)
    world h.limit with ⟨error, hgrowth⟩ | ⟨values, charge, hlimit, hitems, hroom, hcharge, hgrowth⟩
  · rw [hgrowth]
    exact ⟨_, _, rfl, h, rfl, .inl ⟨⟨error, rfl⟩, rfl⟩⟩
  · rw [hgrowth]
    refine ⟨_, _, rfl, ⟨?_, hlimit, h.limit⟩, rfl, .inr ⟨rfl, by simp [hitems]⟩⟩
    have hcost := cost_push hroom statement layout.statement (statementBytes layout)
    have hexact := h.exact
    simp only [History.retained, hcost] at hexact ⊢
    simp only [Vec.cost, hitems] at hexact ⊢
    omega

theorem releaseUnused_spec (left : History)
    (hretained : left.retained layout ≤ history.retained layout)
    (hcharge : left.charge = history.charge) (hlimit : left.limit = history.limit)
    (world : World R) :
    ∃ history', left.releaseUnused layout world = some history' ∧ history'.Charged layout ∧
      history'.statements = left.statements ∧ history'.savepoints = left.savepoints := by
  have hle : left.retained layout ≤ left.charge := by
    rw [hcharge, h.exact]
    exact hretained
  have hwithin : left.charge ≤ left.limit := by
    rw [hcharge, hlimit]
    exact h.le
  have hsmall : left.limit < maxU64 := hlimit ▸ h.limit
  refine ⟨_, History.releaseUnused_eq hle (hwithin.trans hsmall.le), ?_, rfl, rfl⟩
  exact ⟨rfl, hle.trans hwithin, hsmall⟩

theorem truncateStatements_spec (count : ℕ) (world : World R) :
    ∃ history', history.truncateStatements layout count world = some history' ∧
      history'.Charged layout ∧ history'.savepoints = history.savepoints ∧
      history'.statements.items = history.statements.items.take count := by
  have hcut := cost_cut_le history.statements count layout.statement (statementBytes layout)
  obtain ⟨history', hrelease, hcharged, hstatements, hsavepoints⟩ := releaseUnused_spec h
    { history with statements := history.statements.cut count }
    (by simpa [History.retained] using hcut) rfl rfl world
  exact ⟨history', hrelease, hcharged, hsavepoints, by simp [hstatements]⟩

theorem truncateSavepoints_spec (count : ℕ) (world : World R) :
    ∃ history', history.truncateSavepoints layout count world = some history' ∧
      history'.Charged layout ∧ history'.statements = history.statements ∧
      history'.savepoints.items = history.savepoints.items.take count := by
  have hcut := cost_cut_le history.savepoints count layout.savepoint fun saved => saved.1.capacity
  obtain ⟨history', hrelease, hcharged, hstatements, hsavepoints⟩ := releaseUnused_spec h
    { history with savepoints := history.savepoints.cut count }
    (by simpa [History.retained] using hcut) rfl rfl world
  exact ⟨history', hrelease, hcharged, hstatements, by simp [hsavepoints]⟩

end

/-- What the session is after a statement: as it was when the statement failed, and else as the
abstract transaction says. -/
def Follows (tokenize : Tokenizer) (spec : Spec)
    (statement : SqlStatementRequest) (result : Result (SqlResult R)) (history : History) : Prop :=
  match result with
  | .error _ => Represents history spec
  | .ok _ => ∃ spec', spec.apply tokenize statement = some spec' ∧ Represents history spec'

/-- The statement ends without a panic, and the session follows the abstract transaction. -/
def Simulates (layout : Layout) (tokenize : Tokenizer) (spec : Spec)
    (statement : SqlStatementRequest) (ended : Option (Result (SqlResult R) × Session)) : Prop :=
  ∃ result session', ended = some (result, session') ∧ session'.history.Charged layout ∧
    Follows tokenize spec statement result session'.history

section

variable (hcharged : session.history.Charged layout)
include hcharged

section

variable (h : Represents session.history spec)
include h

theorem executePlain_spec
    (hcontrol : parseInteractiveControl tokenize statement.sql.text = .ok none) :
    Simulates layout tokenize spec statement
      (executePlain layout retryId session statement world) := by
  rw [executePlain]
  split
  · exact ⟨_, _, rfl, hcharged, h⟩
  obtain ⟨pushed, history, hpush, hcharged, hsavepoints, hstatements⟩ :=
    pushStatement_spec hcharged statement world
  have hprevious : history.statements.items.take session.history.statements.items.length =
      session.history.statements.items := by
    rcases hstatements with ⟨-, hsame⟩ | ⟨-, hitems⟩
    · rw [hsame, take_length]
    · rw [hitems, take_left]
  simp only [hpush, Option.bind_eq_bind, Option.bind_some]
  split
  · next result hexecution =>
    have happly : spec.apply tokenize statement =
        some { spec with history := spec.history ++ [statement] } := by
      rw [Spec.apply, hcontrol]
    rcases hstatements with ⟨⟨error, rfl⟩, -⟩ | ⟨-, hitems⟩
    · cases hexecution
    · refine ⟨_, _, rfl, hcharged, _, happly, h.nested.apply happly, ?_, ?_⟩
      · rw [hitems, h.statements]
      · rw [hsavepoints, h.savepoints]
  · obtain ⟨history', htruncate, hcharged, hsavepoints', hitems⟩ :=
      truncateStatements_spec hcharged session.history.statements.items.length world
    simp only [htruncate, Option.bind_some]
    refine ⟨_, _, rfl, hcharged, h.nested, ?_, ?_⟩
    · rw [hitems, hprevious, h.statements]
    · rw [hsavepoints', hsavepoints, h.savepoints]

theorem executeSavepoint_spec
    (hcontrol : parseInteractiveControl tokenize statement.sql.text =
      .ok (some (.savepoint name))) :
    Simulates layout tokenize spec statement
      (executeSavepoint layout name session statement world) := by
  rw [executeSavepoint]
  split
  · exact ⟨_, _, rfl, hcharged, h⟩
  have happly : spec.apply tokenize statement =
      some { spec with savepoints := (name, spec.history) :: spec.savepoints } := by
    rw [Spec.apply, hcontrol]
  obtain ⟨result, history, hpush, hcharged, hstatements, hpushed⟩ :=
    pushSavepoint_spec hcharged ⟨name, world.nameCapacity⟩ world
  rw [hpush]
  rcases hpushed with ⟨⟨error, rfl⟩, hsame⟩ | ⟨rfl, hitems⟩
  · refine ⟨_, _, rfl, hcharged, h.nested, ?_, ?_⟩
    · rw [hstatements, h.statements]
    · rw [hsame, h.savepoints]
  · refine ⟨_, _, rfl, hcharged, _, happly, h.nested.apply happly, ?_, ?_⟩
    · rw [hstatements, h.statements]
    · simp [hitems, recorded, counted, h.statements, ← h.savepoints]

theorem executeRollbackTo_spec
    (hcontrol : parseInteractiveControl tokenize statement.sql.text =
      .ok (some (.rollbackTo name))) :
    Simulates layout tokenize spec statement
      (executeRollbackTo layout name session statement world) := by
  rw [executeRollbackTo]
  split
  · exact ⟨_, _, rfl, hcharged, h⟩
  rcases hindex : savepointIndex session.history name with error | index
  · exact ⟨_, _, rfl, hcharged, h⟩
  obtain ⟨saved, before, hdrop, hcount, hkept, -⟩ := h.savepointIndex hindex
  have happly : spec.apply tokenize statement = some ⟨saved.2, saved :: before⟩ := by
    rw [Spec.apply, hcontrol]
    dsimp only
    rw [hdrop]
  have hsaved : saved ∈ spec.savepoints :=
    (dropWhile_sublist _).subset (hdrop ▸ mem_cons_self)
  obtain ⟨history, htruncate, hcharged, hsavepoints, hstatements⟩ :=
    truncateStatements_spec hcharged saved.2.length world
  obtain ⟨history', htruncate', hcharged, hstatements', hsavepoints'⟩ :=
    truncateSavepoints_spec hcharged (index + 1) world
  simp only [hcount, htruncate, htruncate', Option.bind_eq_bind, Option.bind_some]
  refine ⟨_, _, rfl, hcharged, _, happly, h.nested.apply happly, ?_, ?_⟩
  · rw [hstatements', hstatements, h.statements]
    exact (prefix_iff_eq_take.1 (h.nested.prefix_of_mem hsaved)).symm
  · rw [hsavepoints', hsavepoints, hkept]

theorem executeRelease_spec
    (hcontrol : parseInteractiveControl tokenize statement.sql.text =
      .ok (some (.release name))) :
    Simulates layout tokenize spec statement
      (executeRelease layout name session statement world) := by
  rw [executeRelease]
  split
  · exact ⟨_, _, rfl, hcharged, h⟩
  rcases hindex : savepointIndex session.history name with error | index
  · exact ⟨_, _, rfl, hcharged, h⟩
  obtain ⟨saved, before, hdrop, -, -, hkept⟩ := h.savepointIndex hindex
  have happly : spec.apply tokenize statement = some { spec with savepoints := before } := by
    rw [Spec.apply, hcontrol]
    dsimp only
    rw [hdrop]
  obtain ⟨history, htruncate, hcharged, hstatements, hsavepoints⟩ :=
    truncateSavepoints_spec hcharged index world
  simp only [htruncate, Option.bind_eq_bind, Option.bind_some]
  refine ⟨_, _, rfl, hcharged, _, happly, h.nested.apply happly, ?_, ?_⟩
  · rw [hstatements, h.statements]
  · rw [hsavepoints, hkept]

end

end

section

variable (tokenize : Tokenizer) (handle : String) (hcharged : session.history.Charged layout)
  (h : Represents session.history spec)
include hcharged h

/-- **One statement.** -/
theorem executeStatement_spec (retryId : Option String) (statement : SqlStatementRequest)
    (world : World R) :
    Simulates layout tokenize spec statement
      (executeStatement layout tokenize handle retryId session statement world) := by
  rw [executeStatement]
  rcases hnext : nextControl tokenize handle session statement world with error | control
  · exact ⟨_, _, rfl, hcharged, h⟩
  have hcontrol : parseInteractiveControl tokenize statement.sql.text = .ok control := by
    obtain ⟨_, -, hnext⟩ := bind_eq_ok.1 hnext
    obtain ⟨parsed, hparsed, hnext⟩ := bind_eq_ok.1 hnext
    split at hnext
    · cases hnext
    · exact Except.ok.inj hnext ▸ hparsed
  rcases control with _ | name | name | name
  · exact executePlain_spec hcharged h hcontrol
  · exact executeSavepoint_spec hcharged h hcontrol
  · exact executeRollbackTo_spec hcharged h hcontrol
  · exact executeRelease_spec hcharged h hcontrol

/-- **The statements of a request**: those with a result are the ones the abstract transaction
executes. -/
theorem executeStatements_spec (retryId : Option String)
    (statements : List (SqlStatementRequest × World R)) :
    ∃ results error session', executeStatements layout tokenize handle retryId session statements =
        some (results, error, session') ∧ session'.history.Charged layout ∧
      ∃ spec', ((statements.map Prod.fst).take results.length).foldlM (Spec.apply tokenize) spec =
        some spec' ∧ Represents session'.history spec' := by
  induction statements generalizing session spec with
  | nil => exact ⟨[], none, session, rfl, hcharged, spec, rfl, h⟩
  | cons head rest ih =>
    obtain ⟨statement, world⟩ := head
    obtain ⟨result, session', hexecute, hcharged, hfollows⟩ :=
      executeStatement_spec tokenize handle hcharged h retryId statement world
    simp only [executeStatements, hexecute, Option.bind_eq_bind, Option.bind_some]
    rcases result with error | result
    · exact ⟨_, _, _, rfl, hcharged, spec, rfl, hfollows⟩
    · obtain ⟨spec', happly, hrepresents⟩ := hfollows
      obtain ⟨results, error, session'', hrest, hcharged, spec'', hspec, hrepresents⟩ :=
        ih hcharged hrepresents
      simp only [hrest, Option.bind_some]
      refine ⟨_, _, _, rfl, hcharged, spec'', ?_, hrepresents⟩
      simpa [happly] using hspec

/-- **One request.** -/
theorem executeInteractive_spec (request : Request R) :
    ∃ results error session', executeInteractive layout tokenize handle session request =
        some (results, error, session') ∧ session'.history.Charged layout ∧
      ∃ spec', ((request.statements.map Prod.fst).take results.length).foldlM
        (Spec.apply tokenize) spec = some spec' ∧ Represents session'.history spec' := by
  rw [executeInteractive]
  rcases checkRequest request with error | _
  · exact ⟨[], _, _, rfl, hcharged, spec, rfl, h⟩
  obtain ⟨results, error, session', hexecute, hcharged, hspec⟩ :=
    executeStatements_spec tokenize handle hcharged h request.retryId request.statements
  simp only [hexecute, Option.bind_eq_bind, Option.bind_some]
  split <;> exact ⟨results, _, _, rfl, hcharged, hspec⟩

variable (session) in
/-- **Any run of a session.** -/
theorem run_spec (requests : List (Request R)) :
    ∃ session' executed, run layout tokenize handle session requests = some (session', executed) ∧
      session'.history.Charged layout ∧
      ∃ spec', executed.foldlM (Spec.apply tokenize) spec = some spec' ∧
        Represents session'.history spec' := by
  induction requests generalizing session spec with
  | nil => exact ⟨session, [], rfl, hcharged, spec, rfl, h⟩
  | cons request rest ih =>
    obtain ⟨results, error, session', hexecute, hcharged, spec', hspec', h⟩ :=
      executeInteractive_spec tokenize handle hcharged h request
    obtain ⟨session'', executed, hrun, hcharged, spec'', hspec'', h⟩ := ih session' hcharged h
    simp only [run, hexecute, hrun, Option.bind_eq_bind, Option.bind_some]
    refine ⟨_, _, rfl, hcharged, spec'', ?_, h⟩
    rw [foldlM_append, hspec']
    exact hspec''

end

end Simulation

/-- A new session is charged, and is that of the empty transaction. -/
theorem History.new_spec {sqlRequestWorkingSetBytes : UInt64}
    (h : History.new sqlRequestWorkingSetBytes refused = .ok history) :
    history.Charged layout ∧ Represents history {} := by
  have hprofile := sqlRequestWorkingSetBytes.toNat_lt
  rw [History.new] at h
  split at h
  · cases h
  · next hlimit =>
    obtain ⟨charge, hcharge, h⟩ := bind_eq_ok.1 h
    obtain rfl := prepare_eq_ok hcharge
    cases h
    refine ⟨⟨by simp [History.retained, Vec.cost], not_lt.1 hlimit, ?_⟩, ?_, rfl, rfl⟩
    · simp only [maxU64]
      omega
    · simp [Spec.Nested]

theorem Represents.counts (h : Represents history spec) :
    (history.savepoints.items.map Prod.snd ++
      [history.statements.items.length]).Pairwise (· ≤ ·) := by
  have hcounts :
      history.statements.items.length :: (history.savepoints.items.map Prod.snd).reverse =
      (spec.history :: spec.savepoints.map Prod.snd).map List.length := by
    have hsnd := congrArg (List.map Prod.snd) h.savepoints
    simp only [map_map] at hsnd
    rw [h.statements, ← map_reverse, map_cons, map_map]
    exact congrArg _ hsnd
  rw [← pairwise_reverse, reverse_append, reverse_singleton, singleton_append,
    hcounts, pairwise_map]
  exact h.nested.imp List.IsPrefix.length_le

/-- **Savepoints restore the history.**  Whatever is sent to a session and whatever the world
answers, no assertion fails; and the session's history and savepoints are those of the abstract
transaction that executes exactly the statements which had a result, so that their counts do not
decrease and do not exceed the length of the history. -/
theorem savepoints_restore_history (tokenize : Tokenizer) (handle : String)
    (sqlRequestWorkingSetBytes : UInt64) (refused : Option GaussError) (history : History)
    (hnew : History.new sqlRequestWorkingSetBytes refused = .ok history)
    (requests : List (Request R)) :
    ∃ session executed spec,
      run layout tokenize handle ⟨history, false⟩ requests = some (session, executed) ∧
      executed.foldlM (Spec.apply tokenize) {} = some spec ∧
      session.history.statements.items = spec.history ∧
      session.history.savepoints.items.reverse.map recorded = spec.savepoints.map counted ∧
      (session.history.savepoints.items.map Prod.snd ++
        [session.history.statements.items.length]).Pairwise (· ≤ ·) ∧
      session.history.charge = session.history.retained layout := by
  obtain ⟨hcharged, h⟩ := History.new_spec layout hnew
  obtain ⟨session, executed, hrun, hcharged, spec, hspec, h⟩ :=
    run_spec ⟨history, false⟩ tokenize handle hcharged h requests
  exact ⟨session, executed, spec, hrun, hspec, h.statements, h.savepoints, h.counts, hcharged.exact⟩

/-- Four texts and their tokens. -/
def sampleTokens : Tokenizer := fun sql =>
  .ok (if sql = "SAVEPOINT s" then [.word "SAVEPOINT", .whitespace, .word "s"]
    else if sql = "ROLLBACK TO s" then [.word "ROLLBACK", .word "TO", .word "S", .semiColon]
    else [.other])

/-- Two savepoints of one name, and a statement behind each. -/
def sampleRequest : Request Unit :=
  let text (sql : String) : SqlStatementRequest × World Unit :=
    (⟨⟨sql, sql.length⟩, [], 0⟩, { execution := fun _ => .ok () })
  { statements := [text "SAVEPOINT s", text "INSERT 1", text "SAVEPOINT s", text "INSERT 2",
      text "ROLLBACK TO s"] }

theorem savepoints_restore_history_shadowed : ∃ history : History,
    History.new 1048576 none = .ok history ∧
    (run ⟨48, 32, 56⟩ sampleTokens "t" ⟨history, false⟩ [sampleRequest]).map (fun ended =>
      ended.1.history.statements.items.map (·.sql.text)) = some ["INSERT 1"] ∧
    ∃ session executed spec, run ⟨48, 32, 56⟩ sampleTokens "t" ⟨history, false⟩ [sampleRequest] =
        some (session, executed) ∧
      executed.foldlM (Spec.apply sampleTokens) {} = some spec ∧
      session.history.statements.items = spec.history := by
  refine ⟨_, rfl, by decide +kernel, ?_⟩
  obtain ⟨session, executed, spec, hrun, hspec, hstatements, -⟩ := savepoints_restore_history
    ⟨48, 32, 56⟩ sampleTokens "t" 1048576 none _ rfl [sampleRequest]
  exact ⟨session, executed, spec, hrun, hspec, hstatements⟩

end ChironDB.Relational.Interactive
