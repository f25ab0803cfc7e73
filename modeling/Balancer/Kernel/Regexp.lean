import Balancer.Kernel.Chunks
import Balancer.Kernel.IoBase

/-!
# Regular expressions

`library/pire/regexp.h` and `kernel/regexp.cpp`. What pire makes of a regular expression is an
automaton that reads bytes; how it is made is a parameter. A scanner is given by the automata that
were glued to it, which run side by side in a state of the scanner; the number of a regular
expression is its place among them.
-/

namespace Balancer

/-- What is made of one regular expression. -/
structure TAutomaton where
  initial : Nat
  next : Nat → UInt8 → Nat
  final : Nat → Bool

def TAutomaton.accepts (a : TAutomaton) (text : List UInt8) : Bool :=
  a.final (text.foldl a.next a.initial)

/-- `TFsm::TOptions` -/
structure TFsmOptions where
  caseInsensitive : Bool := false
  surround : Bool := false
  deriving DecidableEq, Repr

/-- `TFsm`, by what was glued to `Scanner_`. -/
structure TFsm where
  scanner : List TAutomaton

/-- `parse` is the lexer, the parser and the compiler of pire. `fits` tells if the states of a glued
scanner are not more than `Glue` can make. -/
structure TPire where
  parse : List UInt8 → TFsmOptions → Except TException TAutomaton
  fits : TFsm → TFsm → Bool

namespace TFsm

/-- `TFsm(regexp, opts)` -/
def compile (p : TPire) (regexp : List UInt8) (opts : TFsmOptions := {}) : Except TException TFsm :=
  match p.parse regexp opts with
  | .error e => .error e
  | .ok a => .ok ⟨[a]⟩

/-- `TFsm::False()` -/
def none : TFsm := ⟨[⟨0, fun _ _ => 0, fun _ => false⟩]⟩

/-- `Glue(l, r)` -/
def glue (p : TPire) (l r : TFsm) : Except TException TFsm :=
  if p.fits l r then .ok ⟨l.scanner ++ r.scanner⟩
  else .error (.yexception "Can't create fsm with empty scanner")

end TFsm

/-- `TMatcher`: the automata of the scanner, each with the state that it is in. -/
abbrev TMatcher := List (TAutomaton × Nat)

namespace TMatcher

/-- `TMatcher(fsm)` -/
def init (fsm : TFsm) : TMatcher := fsm.scanner.map fun a => (a, a.initial)

/-- `Match(data, len)` -/
def matchData (m : TMatcher) (data : TChunk) : TMatcher :=
  m.map fun (a, s) => (a, data.foldl a.next s)

/-- `Match(m, lst)` -/
def matchList (m : TMatcher) (lst : TChunkList) : TMatcher := lst.foldl matchData m

def final (m : TMatcher) : Bool := m.any fun (a, s) => a.final s

def matchedFrom : Nat → TMatcher → List Nat
  | _, [] => []
  | n, (a, s) :: m => if a.final s then n :: matchedFrom (n + 1) m else matchedFrom (n + 1) m

/-- `MatchedRegexps()`: their numbers. -/
def matchedRegexps (m : TMatcher) : List Nat := matchedFrom 0 m

/-- It makes no difference where the chunks are cut. -/
theorem matchList_eq (m : TMatcher) (lst : TChunkList) :
    m.matchList lst = m.matchData lst.flatten := by
  induction lst generalizing m with
  | nil => exact (List.map_id m).symm
  | cons c lst ih =>
    rw [matchList, List.foldl_cons, ← matchList, ih, List.flatten_cons]
    simp only [matchData, List.map_map]
    refine List.map_congr_left fun p _ => ?_
    show (p.1, lst.flatten.foldl p.1.next (c.foldl p.1.next p.2)) =
        (p.1, (c ++ lst.flatten).foldl p.1.next p.2)
    rw [List.foldl_append]

/-- Where an automaton accepts, the scanner is final. -/
theorem final_matchData_init (fsm : TFsm) (text : List UInt8) :
    ((init fsm).matchData text).final = fsm.scanner.any fun a => a.accepts text := by
  simp only [init, matchData, final, List.map_map, List.any_map]
  rfl

variable {α : Type} {items : List α} {autos : List TAutomaton} {text : List UInt8} {p : α → Bool}

theorem final_eq_any (h : List.Forall₂ (fun item a => a.accepts text = p item) items autos) :
    ((init ⟨autos⟩).matchData text).final = items.any p := by
  rw [final_matchData_init]
  induction h with
  | nil => rfl
  | cons ha _ ih => rw [List.any_cons, List.any_cons, ha, ih]

/-- The elements at the numbers that are matched. -/
theorem filterMap_matchedFrom (h : List.Forall₂ (fun item a => a.accepts text = p item) items autos)
    (pre : List α) :
    (matchedFrom pre.length ((init ⟨autos⟩).matchData text)).filterMap
      (fun num => (pre ++ items)[num]?) = items.filter p := by
  induction h generalizing pre with
  | nil => rfl
  | @cons item a items autos ha _ ih =>
    have hrest := ih (pre ++ [item])
    rw [List.length_append, List.length_singleton, List.append_assoc, List.singleton_append]
      at hrest
    have hget : (pre ++ item :: items)[pre.length]? = some item := by simp
    have hmatched : matchedFrom pre.length ((init ⟨a :: autos⟩).matchData text) =
        if a.accepts text then
          pre.length :: matchedFrom (pre.length + 1) ((init ⟨autos⟩).matchData text)
        else matchedFrom (pre.length + 1) ((init ⟨autos⟩).matchData text) := rfl
    rw [hmatched, List.filter_cons, ← hrest, ha]
    split
    · rw [List.filterMap_cons, hget]
    · rfl

end TMatcher

end Balancer
