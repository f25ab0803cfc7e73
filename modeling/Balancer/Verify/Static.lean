import Balancer.Modules.Static.Module
import Balancer.Verify.RequestParser

/-!
# Files outside of the directory

The path that the static module opens is the directory followed by what the request line names, so
it is resolved by a walk that starts in the directory (`resolvePath_path`). Nothing keeps the walk
below it: `opens_inside_iff` says which requests stay there.
-/

namespace Balancer

open Http11 (ascii)

theorem pathMoves_append (s t : List UInt8) :
    pathMoves (s ++ [47] ++ t) = pathMoves s ++ pathMoves t := by
  rw [List.append_assoc, List.singleton_append, pathMoves, List.splitOn_append_cons_self,
    List.map_append]
  rfl

theorem cString_append_of_mem {s : List UInt8} (h : 0 ∈ s) (t : List UInt8) :
    cString (s ++ t) = cString s := by
  unfold cString
  rw [List.takeWhile_append, if_neg]
  intro hlen
  have hall := (List.takeWhile_eq_self_iff.1 ((List.takeWhile_prefix _).eq_of_length hlen)) 0 h
  simp at hall

theorem cString_append_of_not_mem {s : List UInt8} (h : 0 ∉ s) (t : List UInt8) :
    cString (s ++ t) = s ++ cString t := by
  unfold cString
  refine List.takeWhile_append_of_pos fun b hb => bne_iff_ne.2 ?_
  rintro rfl
  exact h hb

namespace TStaticModule

variable (m : TStaticModule) (cwd : List (List UInt8))

/-- The part of the path after the directory that `open` sees. -/
def seenFile (request : List UInt8) : List UInt8 :=
  if 0 ∈ m.dir then [] else cString (m.file request)

/-- The directory that is configured. -/
def directory : List (List UInt8) := resolvePath cwd m.dir

/-- The walk goes on from the directory. -/
theorem resolvePath_path (request : List UInt8) :
    resolvePath cwd (m.path request) =
      Paths.walk (m.directory cwd) (pathMoves (m.seenFile request)) := by
  unfold resolvePath directory path seenFile
  by_cases h0 : 0 ∈ m.dir
  · rw [List.append_assoc, cString_append_of_mem h0, if_pos h0]
    rfl
  · have hdir : cString m.dir = m.dir := by
      have := cString_append_of_not_mem h0 []
      rwa [List.append_nil, show cString [] = [] from rfl, List.append_nil] at this
    have hpath : cString (m.dir ++ [47] ++ m.file request) =
        m.dir ++ [47] ++ cString (m.file request) := by
      rw [List.append_assoc, cString_append_of_not_mem h0, List.append_assoc]
      rfl
    have hhead : (m.dir ++ [47] ++ cString (m.file request)).head? = m.dir.head? := by
      obtain ⟨b, bs, hb⟩ := List.exists_cons_of_ne_nil m.dir_ne
      rw [hb]
      rfl
    rw [if_neg h0, hpath, hhead, pathMoves_append, Paths.walk_append]
    unfold resolvePath
    rw [hdir]

/-- A request line that is accepted: what is opened is in the directory exactly if the names of the
directory that the components of the file lead out of are those by which they lead back. -/
theorem opens_inside_iff {line : List UInt8} {req : TParsedHttpRequest}
    (h : TParsedHttpRequest.parse line = .ok req) :
    (∃ names, m.opens cwd line = .ok names ∧ m.directory cwd <+: names) ↔
      (m.directory cwd).drop
          ((m.directory cwd).length - (Paths.net (pathMoves (m.seenFile req.request))).ups) <+:
        (Paths.net (pathMoves (m.seenFile req.request))).downs := by
  have hopens : m.opens cwd line = .ok (resolvePath cwd (m.path req.request)) := by
    rw [opens, h]
    rfl
  rw [hopens, ← Paths.prefix_walk_iff, ← resolvePath_path]
  constructor
  · rintro ⟨names, hn, hpre⟩
    cases hn
    exact hpre
  · intro hpre
    exact ⟨_, rfl, hpre⟩

end TStaticModule

/-- A file below the directory `d`, through a directory that is left again. -/
theorem opens_inside_below :
    ∃ names, (⟨ascii "d", ascii "index.html", by decide⟩ : TStaticModule).opens [ascii "w"]
        (ascii "GET /a/../b HTTP/1.1") = .ok names ∧
      (⟨ascii "d", ascii "index.html", by decide⟩ : TStaticModule).directory [ascii "w"] <+:
        names := by
  have h : TParsedHttpRequest.parse (ascii "GET /a/../b HTTP/1.1") =
      .ok ⟨ascii "GET", ascii "/a/../b", ascii "HTTP/1.1"⟩ := by decide
  exact (TStaticModule.opens_inside_iff _ _ h).2 (by decide)

/-- The request line `GET /../x HTTP/1.1` passes both parsers, and the file `x` beside the directory
`d` is opened. -/
theorem opens_outside :
    ({} : TRequestParseContextHard).parseLists [[ascii "GET /../x HTTP/1.1\r\n\r\n"]] =
      .ok (some (⟨ascii "GET /../x HTTP/1.1", []⟩, [])) ∧
    (⟨ascii "d", ascii "index.html", by decide⟩ : TStaticModule).opens [ascii "w"]
      (ascii "GET /../x HTTP/1.1") = .ok [ascii "w", ascii "x"] ∧
    (⟨ascii "d", ascii "index.html", by decide⟩ : TStaticModule).directory [ascii "w"] =
      [ascii "w", ascii "d"] := by
  decide

end Balancer
