import Ratect.Framing
import Ratect.Text
import Ratect.Transition

/-! # The cache of Git includes and its entry lock

Any number of callers of `ensure_cached` share one cache directory.  A caller that has to clone
takes the entry lock, a file that exists while the lock is held and that carries an OS lock and a
marker, clones into a directory of its own and renames that into place.

`next` is one caller's next file-system call, in the order of `ensure_cached`, `attempt`,
`take_over_if_abandoned`, `clone_if_missing` and `release`: what it does to the disk, and where the
caller then stands.  `step` interleaves the callers' calls in every way, with a caller killed
between any two of them and any call failing.  An inode is a file's identity: the number of a file
that is still open is not given to another. -/

namespace Ratect.GitInclude

open Framing (frame hex)

/-- A string of the program: its length in bytes fits an `isize`. -/
structure RustString where
  text : String
  fits : text.utf8ByteSize < 2 ^ 63

/-- The bytes of a string. -/
def RustString.asBytes (s : RustString) : List UInt8 := s.text.toUTF8.data.toList

/-- A remote and a ref. -/
structure Source where
  remote : RustString
  gitRef : RustString

/-- A SHA-256 digest. -/
structure Digest where
  bytes : List UInt8
  length_bytes : bytes.length = 32

/-- What `cache_key` feeds to the hasher. -/
def Source.message (source : Source) : List UInt8 :=
  frame source.remote.asBytes ++ frame source.gitRef.asBytes

/-- `cache_key`. -/
def cacheKey (sha256 : List UInt8 → Digest) (source : Source) : Text :=
  hex (sha256 source.message).bytes

/-- `<key>.lock`. -/
def lockName (key : Text) : Text := key ++ ".lock".toList

/-- `STAGING_INFIX`. -/
def stagingInfix : Text := ".tmp-".toList

/-- `<key>.tmp-<unique>`. -/
def stagingName (key unique : Text) : Text := key ++ stagingInfix ++ unique

/-! ### The cache directory -/

/-- What a directory holds: the clone that a call of `clone_repo` by `caller` returned, or anything
else. -/
inductive Tree where
  | incomplete
  | clone (source : Source) (caller : ℕ)

/-- What a name refers to. -/
inductive Node where
  | file (inode : ℕ)
  | directory (tree : Tree)

def Node.isDir : Node → Bool
  | .file _ => false
  | .directory _ => true

/-- The cache directory, the contents of the files, their OS locks, and how many were created; with
the unique names drawn so far, and what each caller's `clone_repo` has cloned. -/
structure Disk where
  root : Text → Option Node
  content : ℕ → Text
  osLocks : ℕ → Option ℕ
  inodes : ℕ
  drawn : List Text
  cloned : ℕ → Option Source

/-- `MARKER`. -/
def marker : Text := "ratect-entry-lock 1".toList

/-- `content.lines().next()`. -/
def firstLine (content : Text) : Option Text :=
  let line := content.takeWhile (· ≠ '\n')
  if content = [] then none
  else if line.length < content.length ∧ line.getLast? = some '\r' then some line.dropLast
  else some line

/-- The file carries the marker. -/
def Disk.Marked (disk : Disk) (file : ℕ) : Prop := firstLine (disk.content file) = some marker

instance (disk : Disk) (file : ℕ) : Decidable (disk.Marked file) :=
  inferInstanceAs (Decidable (firstLine (disk.content file) = some marker))

/-- `writeln!(file, "{MARKER}")` at the start of the file. -/
def writeMarker (content : Text) : Text :=
  let line := marker ++ ['\n']
  line ++ content.drop line.length

/-- One file-system call, as it changes the disk. -/
inductive Op where
  | nothing
  | create (name : Text)
  | osLock (file : ℕ)
  | mark (file : ℕ)
  | close
  | unlink (name : Text)
  | clear (name : Text)
  | remove (name : Text)
  | draw (unique : Text)
  | clone (name : Text)
  | cloned (name : Text)
  | rename (old target : Text)

/-- A directory that has lost part of what it held. -/
def Node.clear : Node → Node
  | .file inode => .file inode
  | .directory _ => .directory .incomplete

/-- `remove_dir_all`: it refuses a file. -/
def Node.removed : Node → Option Node
  | .file inode => some (.file inode)
  | .directory _ => none

/-- The disk after a call of `caller`, who works on `source`. -/
def Op.apply (caller : ℕ) (source : Source) (disk : Disk) : Op → Disk
  | .nothing => disk
  | .create name =>
      { disk with
        root := Function.update disk.root name (some (.file disk.inodes))
        content := Function.update disk.content disk.inodes []
        inodes := disk.inodes + 1 }
  | .osLock file => { disk with osLocks := Function.update disk.osLocks file (some caller) }
  | .mark file =>
      { disk with content := Function.update disk.content file (writeMarker (disk.content file)) }
  | .close =>
      { disk with
        osLocks := fun file => if disk.osLocks file = some caller then none else disk.osLocks file }
  | .unlink name => { disk with root := Function.update disk.root name none }
  | .clear name =>
      { disk with root := Function.update disk.root name ((disk.root name).map Node.clear) }
  | .remove name =>
      { disk with root := Function.update disk.root name ((disk.root name).bind Node.removed) }
  | .draw unique => { disk with drawn := unique :: disk.drawn }
  | .clone name =>
      { disk with root := Function.update disk.root name (some (.directory .incomplete)) }
  | .cloned name =>
      { disk with
        root := Function.update disk.root name (some (.directory (.clone source caller)))
        cloned := Function.update disk.cloned caller (some source) }
  | .rename old target =>
      { disk with
        root := Function.update (Function.update disk.root target (disk.root old)) old none }

/-! ### A caller -/

/-- Where a holder of the lock stands in `clone_if_missing` and `release`; `done` is that the clone
is there. -/
inductive Progress where
  | rechecking
  | listing
  | removing (name : Text)
  | starting
  | cloning (unique : Text)
  | renaming (unique : Text)
  | discarding (unique : Text) (done : Bool)
  | releasing (done : Bool)

/-- Where a caller stands: before which call, and with which file open. -/
inductive Stage where
  | checking
  | creating
  | opening
  | created (file : ℕ)
  | marking (file : ℕ)
  | opened (file : ℕ)
  | locked (file : ℕ)
  | verified (file : ℕ)
  | remarking (file : ℕ)
  | dropping (file : ℕ) (again : Bool)
  | waiting
  | holding (file : ℕ) (progress : Progress)
  | closing (file : ℕ) (done : Bool)
  | ended (done : Bool)
  | killed
  | orphaned (unique : Text)

structure Caller where
  source : Source
  stage : Stage

/-- What happens to a caller: it starts, its next call does what the disk lets it, fails or is done
in part, `read_dir` yields a name, a unique name is drawn, or the caller is killed. -/
inductive Move where
  | start (source : Source)
  | go
  | fail
  | part
  | entry (name : Text)
  | draw (unique : Text)
  | kill

/-- The caller is gone; `git` is a process of its own and outlives it. -/
def Stage.kill : Stage → Option Stage
  | .ended _ => none
  | .killed => none
  | .orphaned _ => none
  | .holding _ (.cloning unique) => some (.orphaned unique)
  | _ => some .killed

/-- `attempt` and `take_over_if_abandoned`, and the wait between two attempts. -/
def attempt (disk : Disk) (lock : Text) : Stage → Move → Option (Op × Stage)
  | .creating, .go =>
      match disk.root lock with
      | none => some (.create lock, .created disk.inodes)
      | some _ => some (.nothing, .opening)
  | .creating, .fail => some (.nothing, .ended false)
  | .opening, .go =>
      match disk.root lock with
      | none => some (.nothing, .creating)
      | some (.file file) => some (.nothing, .opened file)
      | some (.directory _) => some (.nothing, .waiting)
  | .opening, .fail => some (.nothing, .waiting)
  -- `created` waits for the OS lock; without it, or without the marker, the file alone is the lock
  | .created file, .go =>
      if disk.osLocks file = none then some (.osLock file, .marking file) else none
  | .created file, .fail => some (.nothing, .holding file .rechecking)
  | .marking file, .go => some (.mark file, .holding file .rechecking)
  | .marking file, .fail => some (.nothing, .holding file .rechecking)
  | .opened file, .go =>
      if disk.osLocks file = none then some (.osLock file, .locked file)
      else some (.nothing, .waiting)
  | .opened _, .fail => some (.nothing, .waiting)
  | .locked file, .go =>
      match disk.root lock with
      | some (.file current) =>
          if current = file then some (.nothing, .verified file)
          else some (.nothing, .dropping file true)
      | _ => some (.nothing, .dropping file true)
  | .locked file, .fail => some (.nothing, .dropping file true)
  | .verified file, .go =>
      if disk.Marked file then some (.nothing, .remarking file)
      else some (.nothing, .dropping file false)
  | .verified file, .fail => some (.nothing, .dropping file false)
  | .remarking file, .go => some (.mark file, .holding file .rechecking)
  | .remarking file, .fail => some (.nothing, .holding file .rechecking)
  | .dropping _ again, .go => some (.close, if again then .creating else .waiting)
  | .waiting, .go => some (.nothing, .creating)
  | .waiting, .fail => some (.nothing, .ended false)
  | _, _ => none

/-- `clone_if_missing` and `release`. -/
def holderNext (disk : Disk) (key : Text) (file : ℕ) : Progress → Move → Option (Op × Stage)
  | .rechecking, .go =>
      if (disk.root key).isSome then some (.nothing, .holding file (.releasing true))
      else some (.nothing, .holding file .listing)
  | .rechecking, .fail => some (.nothing, .holding file .listing)
  -- `remove_staging_directories`, an entry at a time
  | .listing, .entry name =>
      if key ++ stagingInfix <+: name then some (.nothing, .holding file (.removing name))
      else some (.nothing, .holding file .listing)
  | .listing, .go => some (.nothing, .holding file .starting)
  | .listing, .fail => some (.nothing, .holding file .starting)
  | .removing name, .part => some (.clear name, .holding file (.removing name))
  | .removing name, .go => some (.remove name, .holding file .listing)
  | .removing _, .fail => some (.nothing, .holding file .listing)
  | .starting, .draw unique =>
      if unique ∈ disk.drawn then none else some (.draw unique, .holding file (.cloning unique))
  | .cloning unique, .part =>
      some (.clone (stagingName key unique), .holding file (.cloning unique))
  | .cloning unique, .go =>
      some (.cloned (stagingName key unique), .holding file (.renaming unique))
  | .cloning unique, .fail => some (.nothing, .holding file (.discarding unique false))
  | .renaming unique, .go =>
      match disk.root key with
      | none => some (.rename (stagingName key unique) key, .holding file (.releasing true))
      | some node => some (.nothing, .holding file (.discarding unique node.isDir))
  | .renaming unique, .fail =>
      some (.nothing, .holding file
        (.discarding unique (((disk.root key).map Node.isDir).getD false)))
  | .discarding unique done, .part =>
      some (.clear (stagingName key unique), .holding file (.discarding unique done))
  | .discarding unique done, .go =>
      some (.remove (stagingName key unique), .holding file (.releasing done))
  | .discarding _ done, .fail => some (.nothing, .holding file (.releasing done))
  | .releasing done, .go => some (.unlink (lockName key), .closing file done)
  | .releasing done, .fail => some (.nothing, .closing file done)
  | _, _ => none

/-- `ensure_cached`, up to the sidecar. -/
def next (disk : Disk) (key : Text) : Stage → Move → Option (Op × Stage)
  | stage, .kill => stage.kill.map (.close, ·)
  | .checking, .go => some (.nothing, if (disk.root key).isSome then .ended true else .creating)
  | .checking, .fail => some (.nothing, .creating)
  | .holding file progress, move => holderNext disk key file progress move
  | .closing _ done, .go => some (.close, .ended done)
  | .orphaned unique, .part => some (.clone (stagingName key unique), .orphaned unique)
  | stage, move => attempt disk (lockName key) stage move

/-! ### All callers -/

structure Cache where
  disk : Disk
  callers : ℕ → Option Caller

/-- An empty cache directory, and no caller. -/
def Cache.new : Cache where
  disk :=
    { root := fun _ => none
      content := fun _ => []
      osLocks := fun _ => none
      inodes := 0
      drawn := []
      cloned := fun _ => none }
  callers := fun _ => none

/-- One call of one caller. -/
def step (sha256 : List UInt8 → Digest) (s : Cache) (event : ℕ × Move) : Option Cache :=
  match s.callers event.1, event.2 with
  | none, .start source =>
      some { s with callers := Function.update s.callers event.1 (some ⟨source, .checking⟩) }
  | none, _ => none
  | some caller, move =>
      (next s.disk (cacheKey sha256 caller.source) caller.stage move).map fun done =>
        { disk := done.1.apply event.1 caller.source s.disk
          callers := Function.update s.callers event.1 (some ⟨caller.source, done.2⟩) }

end Ratect.GitInclude
