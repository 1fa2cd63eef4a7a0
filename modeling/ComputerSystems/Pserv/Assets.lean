/- Static files: which file a request opens, and whether it lies where the server means to serve. -/

import ComputerSystems.Paths.Lexical
import ComputerSystems.Pserv.Strings

set_option autoImplicit false
set_option relaxedAutoImplicit false

namespace ComputerSystems.Pserv.Assets

open ComputerSystems.Paths.Lexical
open ComputerSystems.Pserv.Strings

def PATH_MAX : Nat := 4096

inductive Status where
  | HTTP_PERMISSION_DENIED
  | HTTP_NOT_FOUND
  | HTTP_INTERNAL_ERROR
  deriving DecidableEq, Repr

/-- What `access` says. -/
inductive Access where
  | granted
  | EACCES
  | other
  deriving DecidableEq, Repr

/-- The files of the machine: what `access`, `stat` and `open` say about a name. -/
structure Files where
  access : Bytes → Access
  stat : Bytes → Option Nat
  opens : Bytes → Bool

inductive Reply where
  | error (status : Status) (message : Bytes)
  | file (fname : Bytes) (mime : String) (size : Nat)
  deriving DecidableEq, Repr

def sendNotFound (reqPath : Bytes) : Reply :=
  .error .HTTP_NOT_FOUND (ascii "File " ++ reqPath ++ ascii " not found")

def guessMimeType (filename : Bytes) : String :=
  match strrchr filename DOT with
  | none => "text/plain"
  | some suffix =>
    if sameText suffix (ascii ".html") then "text/html"
    else if sameText suffix (ascii ".gif") then "image/gif"
    else if sameText suffix (ascii ".png") then "image/png"
    else if sameText suffix (ascii ".jpg") then "image/jpeg"
    else if sameText suffix (ascii ".js") then "text/javascript"
    else if sameText suffix (ascii ".svg") then "image/svg+xml"
    else if sameText suffix (ascii ".mp4") then "video/mp4"
    else if sameText suffix (ascii ".css") then "text/css"
    else "text/plain"

/-- `snprintf(fname, sizeof fname, "%s%s", basedir, req_path)`. -/
def assetName (basedir reqPath : Bytes) : Bytes :=
  (basedir ++ reqPath).take (PATH_MAX - 1)

/-- `strstr(req_path, "../") != NULL`. -/
def GoesUp (reqPath : Bytes) : Prop :=
  (strstr reqPath (ascii "../")).isSome

instance (reqPath : Bytes) : Decidable (GoesUp reqPath) :=
  inferInstanceAs (Decidable (_ = true))

/-- `handle_static_asset`, up to the start of the response. -/
def handleStaticAsset (files : Files) (basedir reqPath : Bytes) : Reply :=
  let fname := assetName basedir reqPath
  if GoesUp reqPath then sendNotFound reqPath
  else
    match files.access fname with
    | .EACCES => .error .HTTP_PERMISSION_DENIED (ascii "Permission denied.")
    | .other => sendNotFound reqPath
    | .granted =>
      match files.stat fname with
      | none => .error .HTTP_INTERNAL_ERROR (ascii "Could not stat file.")
      | some size =>
        if files.opens fname then .file fname (guessMimeType fname) size
        else sendNotFound reqPath

inductive Handler where
  | api
  | private_
  | asset
  deriving DecidableEq, Repr

/-- The tests on `req_path` in `http_handle_transaction`. -/
def dispatch (reqPath : Bytes) : Handler :=
  if startsWith reqPath (ascii "/api") then .api
  else if startsWith reqPath (ascii "/private") then .private_
  else .asset

/-- The answer to a request that goes to `handle_static_asset`. -/
def serve (files : Files) (serverRoot reqPath : Bytes) : Option Reply :=
  match dispatch reqPath with
  | .asset => some (handleStaticAsset files serverRoot reqPath)
  | _ => none

/-- The paths that `http_parse_request` can store. -/
def RequestPath (reqPath : Bytes) : Prop :=
  reqPath ≠ [] ∧ ∀ c ∈ reqPath, c ≠ SP ∧ c ≠ NUL ∧ c ≠ LF

abbrev resolveName (name : Bytes) : List Bytes :=
  resolve SLASH DOT name

def Refused (reqPath : Bytes) : Prop :=
  dispatch reqPath ≠ .asset ∨ GoesUp reqPath

instance (reqPath : Bytes) : Decidable (Refused reqPath) :=
  inferInstanceAs (Decidable (_ ∨ _))

/-- The part of the path that fits into the name behind the base directory. -/
def fitting (basedir reqPath : Bytes) : Bytes :=
  reqPath.take (PATH_MAX - 1 - basedir.length)

/-- The name that is opened stays in the base directory. -/
def StaysInside (basedir reqPath : Bytes) : Prop :=
  Refused reqPath ∨
  if basedir.length < PATH_MAX then Confined SLASH DOT basedir (fitting basedir reqPath)
  else resolveName basedir <+: resolveName (basedir.take (PATH_MAX - 1))

/-- The name that is opened stays out of the private files of the base directory. -/
def StaysPublic (basedir reqPath : Bytes) : Prop :=
  Refused reqPath ∨
  if basedir.length < PATH_MAX then
    ¬ Enters SLASH DOT (ascii "private") basedir (fitting basedir reqPath)
  else ¬ resolveName basedir ++ [ascii "private"] <+: resolveName (basedir.take (PATH_MAX - 1))

section Names

variable {files : Files} {basedir reqPath fname : Bytes}

theorem serve_file {mime : String} {size : Nat}
    (h : serve files basedir reqPath = some (.file fname mime size)) :
    ¬ Refused reqPath ∧ fname = assetName basedir reqPath := by
  unfold serve at h
  split at h
  · rename_i hasset
    simp only [Option.some.injEq, handleStaticAsset] at h
    split at h
    · cases h
    rename_i hup
    refine ⟨fun hrefused => hrefused.elim (fun hne => hne hasset) hup, ?_⟩
    split at h
    · cases h
    · cases h
    split at h
    · cases h
    split at h
    · cases h
      rfl
    · cases h
  · cases h

def openFiles : Files where
  access _ := .granted
  stat _ := some 0
  opens _ := true

theorem serve_openFiles (basedir : Bytes) (h : ¬ Refused reqPath) :
    serve openFiles basedir reqPath =
      some (.file (assetName basedir reqPath) (guessMimeType (assetName basedir reqPath)) 0) := by
  obtain ⟨hasset, hup⟩ := not_or.mp h
  rw [serve, not_not.mp hasset]
  simp [handleStaticAsset, hup, openFiles]

/-- A property of the opened names is a property of the joined name, unless the request is
refused. -/
theorem forall_opened_iff {Q : Bytes → Prop} :
    (∀ files fname mime size, serve files basedir reqPath = some (.file fname mime size) →
      Q fname) ↔ Refused reqPath ∨ Q (assetName basedir reqPath) := by
  constructor
  · intro hall
    by_cases hrefused : Refused reqPath
    · exact Or.inl hrefused
    · exact Or.inr (hall _ _ _ _ (serve_openFiles basedir hrefused))
  · rintro hQ files fname mime size hserve
    obtain ⟨hrefused, rfl⟩ := serve_file hserve
    exact hQ.resolve_left hrefused

theorem assetName_of_short (h : basedir.length < PATH_MAX) :
    assetName basedir reqPath = basedir ++ fitting basedir reqPath := by
  rw [assetName, List.take_append, List.take_of_length_le (by unfold PATH_MAX at *; omega), fitting]

theorem assetName_of_long (h : ¬ basedir.length < PATH_MAX) :
    assetName basedir reqPath = basedir.take (PATH_MAX - 1) := by
  rw [assetName, List.take_append_of_le_length (by omega)]

theorem level_fitting (h : ¬ GoesUp reqPath) :
    Level DOT ((fitting basedir reqPath).splitOn SLASH) :=
  level_of_not_infix fun hup =>
    h (strstr_isSome.mpr (hup.trans (List.take_prefix _ _).isInfix))

/-- Exactly when the files that are opened for a request lie in the base directory. -/
theorem static_confined_iff :
    (∀ files fname mime size, serve files basedir reqPath = some (.file fname mime size) →
      resolveName basedir <+: resolveName fname) ↔ StaysInside basedir reqPath := by
  rw [forall_opened_iff, StaysInside]
  refine or_congr_right' fun hrefused => ?_
  have hup := (not_or.mp hrefused).2
  split
  · rename_i hshort
    rw [assetName_of_short hshort]
    exact confined_iff (level_fitting hup)
  · rename_i hlong
    rw [assetName_of_long hlong]

/-- The request `/..` leads from the base directory `/srv/www` to its parent. -/
theorem static_escape : ¬ ∀ basedir reqPath, NUL ∉ basedir → RequestPath reqPath →
    ∀ files fname mime size, serve files basedir reqPath = some (.file fname mime size) →
      resolveName basedir <+: resolveName fname := by
  intro hall
  have hpath : RequestPath [47, 46, 46] := ⟨by decide, by simp [SP, NUL, LF]⟩
  have hinside := forall_opened_iff.mp
    (hall [47, 115, 114, 118, 47, 119, 119, 119] _ (by decide) hpath)
  revert hinside
  decide

/-- Exactly when no file that is opened for a request is a private one. -/
theorem static_public_iff :
    (∀ files fname mime size, serve files basedir reqPath = some (.file fname mime size) →
      ¬ resolveName basedir ++ [ascii "private"] <+: resolveName fname) ↔
      StaysPublic basedir reqPath := by
  rw [forall_opened_iff, StaysPublic]
  refine or_congr_right' fun hrefused => ?_
  have hup := (not_or.mp hrefused).2
  split
  · rename_i hshort
    rw [assetName_of_short hshort]
    exact not_congr (enters_iff (level_fitting hup) ⟨by decide, by decide⟩)
  · rename_i hlong
    rw [assetName_of_long hlong]

/-- The request `//private/a` passes the test on the path, and opens a private file of the base
directory `/srv/www`. -/
theorem static_private : ¬ ∀ basedir reqPath, NUL ∉ basedir → RequestPath reqPath →
    ∀ files fname mime size, serve files basedir reqPath = some (.file fname mime size) →
      ¬ resolveName basedir ++ [ascii "private"] <+: resolveName fname := by
  intro hall
  have hpath : RequestPath [47, 47, 112, 114, 105, 118, 97, 116, 101, 47, 97] :=
    ⟨by decide, by simp [SP, NUL, LF]⟩
  have hpublic := forall_opened_iff.mp
    (hall [47, 115, 114, 118, 47, 119, 119, 119] _ (by decide) hpath)
  revert hpublic
  decide

end Names

end ComputerSystems.Pserv.Assets
