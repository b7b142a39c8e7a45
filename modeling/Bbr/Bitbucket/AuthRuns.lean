import Bbr.Bitbucket.AuthRoundTrip

/-!
# Runs of a credential file

Profiles are inserted, replaced and removed. The file that is left stands for the map that the
operations which succeeded build.
-/
namespace Bbr.Bitbucket.Auth

open List Function Bbr.Lib

open Bbr.Diff (ascii)

inductive Op where
  | upsert (name : Bytes) (creds : Credential)
  | remove (name : Bytes)

namespace Op

def name : Op → Bytes
  | upsert name _ => name
  | remove name => name

def apply (op : Op) (disk : Disk) : Except AuthError Disk :=
  match op with
  | upsert name creds => upsertProfile name creds disk
  | remove name => (removeProfile name disk).map Prod.snd

/-- What the operation does to a map of profiles. -/
def update (op : Op) (profiles : Bytes → Option Credential) : Bytes → Option Credential :=
  match op with
  | upsert name creds => Function.update profiles name (some creds)
  | remove name => Function.update profiles name none

end Op

/-- An operation that fails changes neither the file nor the map. -/
def track (state : Disk × (Bytes → Option Credential)) (op : Op) :
    Disk × (Bytes → Option Credential) :=
  match op.apply state.1 with
  | .ok disk => (disk, op.update state.2)
  | .error _ => state

def run (ops : List Op) : Disk × (Bytes → Option Credential) :=
  ops.foldl track (none, fun _ => none)

def NamedProfile.credential (self : NamedProfile) : Credential :=
  ⟨self.username, self.token, self.workspace⟩

def AuthFile.lookup (self : AuthFile) (name : Bytes) : Option Credential :=
  (self.find name).map NamedProfile.credential

/-- What the file on disk holds under a name. -/
def lookup (disk : Disk) (name : Bytes) : Option Credential :=
  match load disk with
  | .ok (some file) => file.lookup name
  | _ => none

variable {disk : Disk}

variable {views : List NamedProfile} {activeProfile : Bytes}

variable {file : AuthFile} {name : Bytes}

variable {other : Bytes}

/-- The profiles that an upsert keeps. -/
def kept (loaded : Option AuthFile) (name : Bytes) : List NamedProfile :=
  loaded.elim [] (fun file => file.others name)

variable {disk disk' : Disk} {profiles : Bytes → Option Credential} {creds : Credential}

variable {removed : Bool}

variable {state : Disk × (Bytes → Option Credential)}

end Bbr.Bitbucket.Auth
