import CrashVault.Vault.Call
import Mathlib.Logic.Function.Basic

/-! What a vault holds, as three maps: the open sessions with their files, the reports, and the common
files. Each call has its effect on the maps (`step`), the answers that the maps allow (`Allows`), and the
maps have their image in the tree below the root (`nodeAt`). -/

namespace CrashVault
namespace Vault

structure Contents where
  sessions : String → Option (String → Option String)
  reports : String → Option String
  common : String → Option String

namespace Contents

def empty : Contents := ⟨fun _ => none, fun _ => none, fun _ => none⟩

def setCommon (c : Contents) (name : String) (text? : Option String) : Contents :=
  { c with common := Function.update c.common name text? }

def setReport (c : Contents) (name : String) (text? : Option String) : Contents :=
  { c with reports := Function.update c.reports name text? }

/-- The session is there, with the files it has; a new one has none. -/
def openSession (c : Contents) (id : String) : Contents :=
  { c with sessions := Function.update c.sessions id (some ((c.sessions id).getD fun _ => none)) }

def dropSession (c : Contents) (id : String) : Contents :=
  { c with sessions := Function.update c.sessions id none }

/-- Gives a session's file a text; without the session there is nothing to give it to. -/
def setFile (c : Contents) (id name text : String) : Contents :=
  { c with sessions :=
      Function.update c.sessions id ((c.sessions id).map fun files => Function.update files name (some text)) }

def step (c : Contents) : Call → Contents
  | .commonFile name (some text) => c.setCommon name (some text)
  | .sessionFile id _ none => c.openSession id
  | .sessionFile id name (some text) => (c.openSession id).setFile id name text
  | .reportFile kind id (some text) => c.setReport (id ++ kind.extension) (some text)
  | .deleteSession id => c.dropSession id
  | .deleteReport id => c.setReport id none
  | .deleteAll => empty
  | _ => c

/-- Opening a vault once more changes nothing. -/
def stepAct (c : Contents) : Act → Contents
  | .reopen => c
  | .on _ call => c.step call

def after (acts : List Act) : Contents := acts.foldl stepAct empty

/-- The answer lists what is held in a directory, each name once, as far as it is to be kept. -/
def Lists (dir : Path) (keep : String → Bool) (held : String → Prop) (a : Answer) : Prop :=
  ∃ names : List String, a = .paths (names.map (dir / ·)) ∧ names.Nodup ∧
    ∀ n, n ∈ names ↔ keep n = true ∧ held n

/-- The answers a call can give; `swept` tells whether there has been an older layout and now is none. -/
def Allows (c : Contents) (v : Vault) (swept : Prop) : Call → Answer → Prop
  | .commonFile name text?, a => a = .path (v.root / name) (text?.map fun _ => true)
  | .sessionFile id name text?, a => a = .path (v.sessionDir id / name) (text?.map fun _ => true)
  | .reportFile kind id text?, a => a = .path (v.reportFile kind id) (text?.map fun _ => true)
  | .write _ _, _ => False
  | .listCommon keep, a =>
    Lists v.root keep (fun n => n = sessionsName ∨ n = reportsName ∨ ∃ text, c.common n = some text) a
  | .listSession id keep, a =>
    Lists (v.sessionDir id) keep (fun n => ∃ files text, c.sessions id = some files ∧ files n = some text) a
  | .openSessions, a => ∃ ids, a = .ids ids ∧ ids.Nodup ∧ ∀ id, id ∈ ids ↔ ∃ files, c.sessions id = some files
  | .listReports, a => Lists v.reports (fun _ => true) (fun n => ∃ text, c.reports n = some text) a
  | .deleteSession id, a => a = .flag (c.sessions id).isSome
  | .deleteReport id, a => a = .flag (c.reports id).isSome
  | .cleanupLegacy, a => ∃ b, a = .flag b ∧ (b = true ↔ swept)
  | .deleteAll, a => a = .done

def AllowsAct (c : Contents) (v : Vault) (swept : Prop) : Act → Answer → Prop
  | .reopen, a => a = .done
  | .on _ call, a => c.Allows v swept call a

/-- The node at a place below the root, the root itself being at the empty one. -/
def nodeAt (c : Contents) : Loc → Option Node
  | [] => some .directory
  | [n] => if n = sessionsName ∨ n = reportsName then some .directory else (c.common n).map .file
  | [n, dir] =>
    if dir = sessionsName then (c.sessions n).map fun _ => .directory
    else if dir = reportsName then (c.reports n).map .file
    else none
  | [n, id, dir] => if dir = sessionsName then ((c.sessions id).bind (· n)).map .file else none
  | _ => none

theorem reportsName_ne : reportsName ≠ sessionsName := by decide

theorem nodeAt_empty (r : Loc) : empty.nodeAt r =
    if r = [] ∨ r = [sessionsName] ∨ r = [reportsName] then some .directory else none := by
  match r with
  | [] => simp [nodeAt]
  | [n] => simp [nodeAt, empty]
  | [n, dir] => simp [nodeAt, empty]
  | [n, id, dir] => simp [nodeAt, empty]
  | _ :: _ :: _ :: _ :: _ => simp [nodeAt]

theorem nodeAt_setCommon {c : Contents} {name : String} (h1 : name ≠ sessionsName) (h2 : name ≠ reportsName)
    (text? : Option String) (r : Loc) : (c.setCommon name text?).nodeAt r =
      if r = [name] then text?.map .file else c.nodeAt r := by
  match r with
  | [] => simp [nodeAt]
  | [n] =>
    by_cases hn : n = name
    · subst hn
      simp [nodeAt, setCommon, h1, h2]
    · simp [nodeAt, setCommon, hn]
  | [n, dir] => simp [nodeAt, setCommon]
  | [n, id, dir] => simp [nodeAt, setCommon]
  | _ :: _ :: _ :: _ :: _ => simp [nodeAt]

theorem nodeAt_setReport (c : Contents) (name : String) (text? : Option String) (r : Loc) :
    (c.setReport name text?).nodeAt r =
      if r = [name, reportsName] then text?.map .file else c.nodeAt r := by
  match r with
  | [] => simp [nodeAt]
  | [n] => simp [nodeAt, setReport]
  | [n, dir] =>
    by_cases hdir : dir = reportsName
    · subst hdir
      by_cases hn : n = name
      · simp [nodeAt, setReport, hn, reportsName_ne]
      · simp [nodeAt, setReport, hn, reportsName_ne]
    · simp [nodeAt, setReport, hdir]
  | [n, id, dir] => simp [nodeAt, setReport]
  | _ :: _ :: _ :: _ :: _ => simp [nodeAt]

theorem nodeAt_openSession (c : Contents) (id : String) (r : Loc) : (c.openSession id).nodeAt r =
    if r = [id, sessionsName] then some .directory else c.nodeAt r := by
  match r with
  | [] => simp [nodeAt]
  | [n] => simp [nodeAt, openSession]
  | [n, dir] =>
    by_cases hdir : dir = sessionsName
    · subst hdir
      by_cases hn : n = id
      · simp [nodeAt, openSession, hn]
      · simp [nodeAt, openSession, hn]
    · simp [nodeAt, openSession, hdir]
  | [n, k, dir] =>
    by_cases hk : k = id
    · subst hk
      cases hs : c.sessions k <;> simp [nodeAt, openSession, hs]
    · simp [nodeAt, openSession, hk]
  | _ :: _ :: _ :: _ :: _ => simp [nodeAt]

theorem nodeAt_setFile {c : Contents} {id : String} {files : String → Option String}
    (h : c.sessions id = some files) (name text : String) (r : Loc) : (c.setFile id name text).nodeAt r =
      if r = [name, id, sessionsName] then some (.file text) else c.nodeAt r := by
  match r with
  | [] => simp [nodeAt]
  | [n] => simp [nodeAt, setFile]
  | [n, dir] =>
    by_cases hn : n = id
    · simp [nodeAt, setFile, hn, h]
    · simp [nodeAt, setFile, hn]
  | [n, k, dir] =>
    by_cases hk : k = id
    · subst hk
      by_cases hdir : dir = sessionsName
      · by_cases hn : n = name
        · simp [nodeAt, setFile, h, hdir, hn]
        · simp [nodeAt, setFile, h, hdir, hn]
      · simp [nodeAt, hdir]
    · simp [nodeAt, setFile, hk]
  | _ :: _ :: _ :: _ :: _ => simp [nodeAt]

theorem nodeAt_dropSession (c : Contents) (id : String) (r : Loc) : (c.dropSession id).nodeAt r =
    if [id, sessionsName] <:+ r then none else c.nodeAt r := by
  match r with
  | [] => simp [nodeAt]
  | [n] => simp [nodeAt, dropSession, List.suffix_cons_iff]
  | [n, dir] =>
    by_cases hdir : dir = sessionsName
    · by_cases hn : n = id
      · simp [nodeAt, dropSession, hn, hdir]
      · have : ¬ [id, sessionsName] <:+ [n, dir] := by
          simp [List.suffix_cons_iff, hdir, Ne.symm hn]
        simp [nodeAt, dropSession, hn, this]
    · have : ¬ [id, sessionsName] <:+ [n, dir] := by
        simp [List.suffix_cons_iff, Ne.symm hdir]
      simp [nodeAt, dropSession, hdir, this]
  | [n, k, dir] =>
    have hs : [id, sessionsName] <:+ [n, k, dir] ↔ id = k ∧ sessionsName = dir := by
      simp [List.suffix_cons_iff]
    by_cases hk : k = id
    · by_cases hdir : dir = sessionsName
      · simp [nodeAt, dropSession, hk, hdir]
      · simp [nodeAt, hdir, hs, Ne.symm hdir]
    · simp [nodeAt, dropSession, hk, hs, Ne.symm hk]
  | _ :: _ :: _ :: _ :: _ => simp [nodeAt]

end Contents

/-- The ids and names of a call are single names, none of a directory that is not theirs, and the names
and paths formed from them are not too long. -/
def Call.Fits (v : Vault) : Call → Prop
  | .commonFile name _ => IsEntryName name ∧ name ≠ sessionsName ∧ name ≠ reportsName ∧
    (v.root / name).byteSize ≤ pathMax
  | .sessionFile id name _ => IsEntryName id ∧ IsEntryName name ∧ (v.sessionDir id / name).byteSize ≤ pathMax
  | .reportFile kind id _ => IsName id ∧ (id ++ kind.extension).utf8ByteSize ≤ nameMax ∧
    (v.reportFile kind id).byteSize ≤ pathMax
  | .listSession id _ | .deleteSession id => IsEntryName id ∧ (v.sessionDir id).byteSize ≤ pathMax
  | .deleteReport id => IsEntryName id ∧ (v.reportFile .untagged id).byteSize ≤ pathMax
  | .write _ _ => False
  | _ => True

def Act.Fits (v : Vault) : Act → Prop
  | .reopen => True
  | .on _ call => call.Fits v

end Vault
end CrashVault
