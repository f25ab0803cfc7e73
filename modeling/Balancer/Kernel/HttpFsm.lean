import Mathlib

/-!
# The header block machine

`kernel/httpfsm.rl`, with the machine that it describes written out as a transition table:

    main := request lend (header lend)* ((lend) @endOfHeaders);

An entering action (`>`) stands on the transitions that enter its expression, a leaving action (`%`)
on the transitions by which the next expression starts, so `endOfToken` and `nextToken` fire at the
first byte that no longer belongs to the token or delimiter they close. No transition carries two
actions that depend on their order.
-/

namespace Balancer.ParseHttpRequest

def CR : UInt8 := 13
def LF : UInt8 := 10
def SP : UInt8 := 32
def HT : UInt8 := 9
def COLON : UInt8 := 58

/-- `char = any -- [\r\n]` -/
def isChar (c : UInt8) : Bool := c != CR && c != LF

/-- `hdelim = [ \t:]` -/
def isHdelim (c : UInt8) : Bool := c == SP || c == HT || c == COLON

/-- `hchar = char -- hdelim` -/
def isHchar (c : UInt8) : Bool := isChar c && !isHdelim c

inductive Action where
  | endOfHeaders
  | startOfRequest
  | startOfKey
  | startOfValue
  | endOfToken
  | nextToken
  deriving DecidableEq, Repr

/-- The states of the machine (`cs`). The error state is the absence of a transition. -/
inductive State where
  /-- Before the first byte. -/
  | start
  /-- Inside `request`. -/
  | request
  /-- After the `\r` that follows `request`. -/
  | requestCr
  /-- After a `lend`. -/
  | line
  /-- Inside `hkey`. -/
  | key
  /-- Inside `hdelim+`. -/
  | delim
  /-- Inside `hvalue`. -/
  | value
  /-- After the `\r` that ends a header. -/
  | headerCr
  /-- After the `\r` of the empty line. -/
  | lastCr
  | final
  deriving DecidableEq, Repr

def transition : State → UInt8 → Option (State × List Action)
  | .start, c => if isChar c then some (.request, [.startOfRequest]) else none
  | .request, c =>
    if isChar c then some (.request, [])
    else if c = CR then some (.requestCr, [.endOfToken])
    else some (.line, [.endOfToken])
  | .requestCr, c => if c = LF then some (.line, []) else none
  | .line, c =>
    if isHchar c then some (.key, [.nextToken, .startOfKey])
    else if c = CR then some (.lastCr, [.nextToken])
    else if c = LF then some (.final, [.nextToken, .endOfHeaders])
    else none
  | .key, c =>
    if isHchar c then some (.key, [])
    else if isHdelim c then some (.delim, [.endOfToken])
    else none
  | .delim, c =>
    if isHdelim c then some (.delim, [])
    else if isHchar c then some (.value, [.nextToken, .startOfValue])
    else if c = CR then some (.headerCr, [.nextToken])
    else some (.line, [.nextToken])
  | .value, c =>
    if isChar c then some (.value, [])
    else if c = CR then some (.headerCr, [.endOfToken])
    else some (.line, [.endOfToken])
  | .headerCr, c => if c = LF then some (.line, []) else none
  | .lastCr, c => if c = LF then some (.final, [.endOfHeaders]) else none
  | .final, _ => none

/-! ### The transitions by what they do to the open token -/

/-- The states inside a token. -/
def State.inTok : State → Bool
  | .request | .key | .value => true
  | _ => false

/-- A transition stays inside a token or outside, opens a token, closes one, passes between two
delimiters, or ends the block. -/
theorem transition_cases {q q' : State} {c : UInt8} {acts : List Action}
    (h : transition q c = some (q', acts)) :
    (acts = [] ∧ q'.inTok = q.inTok ∧ q' ≠ .start ∧
      (q' = .key ∨ q' = .delim → q = .key ∨ q = .delim)) ∨
    (acts = [.startOfRequest] ∧ q = .start ∧ q' = .request) ∨
    (acts = [.endOfToken] ∧ q.inTok = true ∧ q'.inTok = false ∧ q' ≠ .start ∧
      (q' = .key ∨ q' = .delim → q = .key)) ∨
    (acts = [.nextToken, .startOfKey] ∧ q.inTok = false ∧ q' = .key) ∨
    (acts = [.nextToken, .startOfValue] ∧ q = .delim ∧ q' = .value) ∨
    (acts = [.nextToken] ∧ q.inTok = false ∧ q'.inTok = false ∧ q' ≠ .start ∧ q' ≠ .delim) ∨
    ((acts = [.endOfHeaders] ∨ acts = [.nextToken, .endOfHeaders]) ∧ q.inTok = false ∧
      q' = .final) := by
  cases q <;> simp only [transition] at h <;> (repeat' split at h) <;>
    simp only [Option.some.injEq, Prod.mk.injEq, reduceCtorEq] at h <;>
    obtain ⟨rfl, rfl⟩ := h <;> simp [State.inTok]

/-- The start state is not entered again. -/
theorem transition_ne_start {q q' : State} {c : UInt8} {acts : List Action}
    (h : transition q c = some (q', acts)) : q' ≠ .start := by
  rcases transition_cases h with ⟨-, -, h, -⟩ | ⟨-, -, rfl⟩ | ⟨-, -, -, h, -⟩ | ⟨-, -, rfl⟩ |
    ⟨-, -, rfl⟩ | ⟨-, -, -, h, -⟩ | ⟨-, -, rfl⟩
  all_goals first | exact h | simp

/-- The final state is entered only with the action that returns. -/
theorem transition_final {q : State} {c : UInt8} {acts : List Action}
    (h : transition q c = some (.final, acts)) : .endOfHeaders ∈ acts := by
  cases q <;> simp only [transition] at h <;> (repeat' split at h) <;>
    simp only [Option.some.injEq, Prod.mk.injEq, reduceCtorEq, false_and] at h
  all_goals simp [← h.2]

end Balancer.ParseHttpRequest
