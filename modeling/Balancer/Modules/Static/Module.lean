import Balancer.Kernel.Alloc
import Balancer.Kernel.Http
import Balancer.Modules.Spdy.Frames
import Balancer.Theory.Interaction
import Balancer.Theory.Paths

/-!
# The static module

`modules/static/module.cpp` with `util/string/http.cpp`: the path that the static module opens for a
request line, and how the operating system resolves such a path. Links are not followed here: what
is resolved are the components of the path.

The last section is the file itself, by `modules/static/queue.h` and `util/system/file.cpp`, and how
`DoRun` sends it. `TThreadedQueue::Run` calls the operation at once.
-/

namespace Balancer

open Http11 (ascii)

/-! ### `TParsedHttpRequest` -/

/-- `IsAsciiSpace`, by the table `asciiSpaces`. -/
def isAsciiSpace (c : UInt8) : Bool := 9 ≤ c && c ≤ 13 || c == 32

def stripLeft (s : List UInt8) : List UInt8 := s.dropWhile isAsciiSpace

structure TParsedHttpRequest where
  method : List UInt8
  request : List UInt8
  proto : List UInt8
  deriving DecidableEq, Repr

/-- The constructor. The text of the exception goes on with the quoted request line. -/
def TParsedHttpRequest.parse (str : List UInt8) : Except TException TParsedHttpRequest :=
  match Spdy.TStringBuf.splitImpl 32 (stripLeft str) with
  | none => .error (.yexception "bad request")
  | some (method, tmp) =>
    match Spdy.TStringBuf.splitImpl 32 (stripLeft tmp) with
    | none => .error (.yexception "bad request")
    | some (request, proto) => .ok { method, request, proto := stripLeft proto }

/-! ### The module -/

/-- The configuration, which the constructor accepts with a directory only. -/
structure TStaticModule where
  dir : List UInt8
  index : List UInt8 := ascii "index.html"
  dir_ne : dir ≠ []

namespace TStaticModule

/-- `file` in `DoRun`. -/
def file (m : TStaticModule) (request : List UInt8) : List UInt8 :=
  if request = [] ∨ request = ascii "/" then m.index else request

/-- `path` in `DoRun`; the constructor has appended a slash to `Dir_`. -/
def path (m : TStaticModule) (request : List UInt8) : List UInt8 := m.dir ++ [47] ++ m.file request

end TStaticModule

/-! ### Opening a file -/

/-- The string that `open` sees. -/
def cString (s : List UInt8) : List UInt8 := s.takeWhile (· != 0)

def componentMove (c : List UInt8) : Paths.Move (List UInt8) :=
  if c = [] ∨ c = ascii "." then .stay else if c = ascii ".." then .up else .down c

def pathMoves (s : List UInt8) : List (Paths.Move (List UInt8)) := (s.splitOn 47).map componentMove

/-- The names from the root on to which `open` resolves the string, in the working directory
`cwd`. -/
def resolvePath (cwd : List (List UInt8)) (s : List UInt8) : List (List UInt8) :=
  Paths.walk (if (cString s).head? = some 47 then [] else cwd) (pathMoves (cString s))

/-- The path that `DoRun` opens for a request line, as it is resolved. -/
def TStaticModule.opens (m : TStaticModule) (cwd : List (List UInt8)) (line : List UInt8) :
    Except TException (List (List UInt8)) :=
  (TParsedHttpRequest.parse line).map fun req => resolvePath cwd (m.path req.request)

/-! ### Sending a file -/

/-- A regular file that does not change. `pread` may give less than what is there, but not
nothing. -/
structure TRegularFile where
  data : List UInt8
  portion : Nat → Nat → Nat
  portion_pos : ∀ off count, 0 < count → 0 < portion off count
  portion_le : ∀ off count, portion off count ≤ count

namespace TRegularFile

/-- `pread` -/
def handlePread (f : TRegularFile) (count off : Nat) : List UInt8 :=
  (f.data.drop off).take (f.portion off count)

theorem length_handlePread_le (f : TRegularFile) (count off : Nat) :
    (f.handlePread count off).length ≤ count :=
  (List.length_take_le _ _).trans (f.portion_le off count)

def MaxPortion : Nat := 2 ^ 30

/-- `TFile::Pread` -/
def pread (f : TRegularFile) (numBytes off : Nat) : List UInt8 :=
  if numBytes = 0 then []
  else
    match f.handlePread (min MaxPortion numBytes) off with
    | [] => []
    | b :: buf => b :: buf ++ f.pread (numBytes - (buf.length + 1)) (off + (buf.length + 1))
termination_by numBytes

/-- The portions make up what is asked for. -/
theorem pread_eq (f : TRegularFile) (numBytes off : Nat) :
    f.pread numBytes off = (f.data.drop off).take numBytes := by
  fun_induction pread f numBytes off with
  | case1 off => rfl
  | case2 numBytes off hne hbuf =>
    -- nothing is read at the end only
    have hpos := f.portion_pos off (min MaxPortion numBytes) (by simp [MaxPortion]; omega)
    have hnil : f.data.drop off = [] := by
      rcases List.take_eq_nil_iff.1 hbuf with h | h
      · omega
      · exact h
    rw [hnil, List.take_nil]
  | case3 numBytes off hne b buf hbuf ih =>
    have hlen : buf.length + 1 ≤ numBytes := by
      have h := f.length_handlePread_le (min MaxPortion numBytes) off
      rw [hbuf, List.length_cons] at h
      exact h.trans (Nat.min_le_right _ _)
    have hprefix : f.handlePread (min MaxPortion numBytes) off <+: f.data.drop off :=
      List.take_prefix ..
    rw [hbuf] at hprefix
    have hpre : b :: buf = (f.data.drop off).take (buf.length + 1) :=
      List.prefix_iff_eq_take.1 hprefix
    rw [ih, hpre, ← List.drop_drop, ← List.take_add]
    congr 1
    omega

/-- `TThreadedFile::Pread`: a new chunk, shrunk to what is read. -/
def preadChunk (f : TRegularFile) (offset : Nat) : TChunk := f.pread (newChunkLength 7000) offset

theorem preadChunk_eq (f : TRegularFile) (offset : Nat) :
    f.preadChunk offset = (f.data.drop offset).take (newChunkLength 7000) :=
  f.pread_eq _ _

theorem length_preadChunk_le (f : TRegularFile) (offset : Nat) :
    (f.preadChunk offset).length ≤ f.data.length - offset := by
  rw [preadChunk_eq, List.length_take, List.length_drop]
  exact Nat.min_le_right _ _

/-- The loop of `DoRun`. An exception of `Send` is passed on. -/
def sendAll (f : TRegularFile) (off : Nat) (lst : TChunkList) : TBehaviour :=
  if _h : f.preadChunk off = [] then .ret
  else
    .send (lst ++ [f.preadChunk off]) fun
      | .error e => .throw e
      | .ok () => f.sendAll (off + (f.preadChunk off).length) []
termination_by f.data.length - off
decreasing_by
  have hpos := List.length_pos_iff.2 _h
  have hle := f.length_preadChunk_le off
  omega

end TRegularFile

namespace TStaticModule

/-- What `DoRun` pushes in front of the file. -/
def head (file : List UInt8) : TChunkList :=
  [ascii "HTTP/1.1 200 Ok\r\n"] ++
    (if ascii ".xhtml" <:+: file then [ascii "Content-Type: application/xhtml+xml\r\n"] else []) ++
      [CRLF]

/-- `DoRun`, where `fs` opens a file or gives the text of the error. -/
def doRun (m : TStaticModule) (fs : List UInt8 → Except String TRegularFile) (r : TRequest) :
    TBehaviour :=
  match TParsedHttpRequest.parse r.request.flatten with
  | .error e => .throw e
  | .ok req =>
    match fs (m.path req.request) with
    | .error error => .throw (.yexception error)
    | .ok f => f.sendAll 0 (head (m.file req.request))

end TStaticModule

end Balancer
