import NetworkLabs.Transition
import NetworkLabs.Upload.Client
import NetworkLabs.Upload.FileSystem

/-! One upload on the server: `ConnectionTask.run`, one call on the outside world at a time. -/
namespace NetworkLabs.Upload

open Transition

def tickTime : Int := 3000

def timeout : Int := 25000

/-- What a call that waits for all of its bytes comes to. -/
inductive Fetch
  | ok
  | eof
  | failed
deriving DecidableEq

/-- What `in.read(buffer)` comes to: `k` of the next bytes, the end of the stream, a tick
without any byte, another error. -/
inductive Answer
  | got (k : Nat)
  | closed
  | tick
  | failed
deriving DecidableEq

/-- How `run` left its `try` block: normally or by one of its `catch` clauses. -/
inductive Ending
  | completed
  | notFound
  | timeout
  | eof
  | ioError
deriving DecidableEq

/-- `requestCleanup`. -/
def Ending.requestCleanup : Ending → Bool
  | .completed | .notFound => false
  | .timeout | .eof | .ioError => true

inductive Pc
  | readName
  | parse (name : Name)
  | create
  | readSize
  | receive (size lastTime : Int)
  | cleanup (ending : Ending)
  | respond (ending : Ending)
  | closed (ending : Ending)
deriving DecidableEq

/-- `input` are the bytes of the stream that were not read yet. -/
structure ConnectionTask where
  input : List UInt8
  pc : Pc
  filename : Name
  handle : Handle
  success : Bool

namespace ConnectionTask

/-- `String.trim`. -/
def trim (s : Name) : Name := ((s.dropWhile (· ≤ ' ')).reverse.dropWhile (· ≤ ' ')).reverse

/-- `lastIndexOf`, `-1` when there is none. -/
def lastIndexOf (s : Name) (c : Char) : Int := (s.length : Int) - 1 - s.reverse.idxOf c

/-- The name that `parse` makes of what the client sent. -/
def baseName (s : Name) : Name :=
  let pos := max (max (lastIndexOf s '/') (lastIndexOf s '\\')) 0
  trim (s.drop pos.toNat)

/-- The head of the receiving loop. -/
def loop (size lastTime : Int) : Pc :=
  if size > 0 then .receive size lastTime else .cleanup .completed

/-- `update`: the new `lastTime`, unless it throws. -/
def update (now lastTime : Int) : Option Int := if now - lastTime > timeout then none else some now

/-- The outside world: results of calls and readings of the clock. -/
inductive Action
  | readName (r : Fetch)
  | parse
  | create (ok : Bool)
  | readSize (r : Fetch) (now : Int)
  | read (r : Answer) (stored : Bool) (checked now : Int)
  | cleanup
  | respond
deriving DecidableEq

/-- After a read of `k` bytes: they are stored, counted, and the clock is looked at. -/
def received (t : ConnectionTask) (fs : FileSystem) (k : Nat) (size lastTime : Int) (stored : Bool)
    (checked now : Int) : ConnectionTask × FileSystem :=
  let t' := { t with input := t.input.drop k }
  if stored then
    let (fs', handle) := fs.write t.handle (t.input.take k)
    let pc :=
      if checked - lastTime > tickTime then
        match update now lastTime with
        | some lastTime' => loop (size - k) lastTime'
        | none => .cleanup .timeout
      else loop (size - k) lastTime
    ({ t' with handle := handle, pc := pc }, fs')
  else ({ t' with pc := .cleanup .ioError }, fs)

/-- One call; no file can be created under a name with a zero character. `decode` is the
platform's `new String(bytes)`. -/
def step (decode : List UInt8 → Name) (t : ConnectionTask) (fs : FileSystem) :
    Action → Option (ConnectionTask × FileSystem)
  | .readName r =>
    if t.pc = .readName then
      match r with
      | .ok =>
        if bufferSize ≤ t.input.length then
          some ({ t with input := t.input.drop bufferSize
                         pc := .parse (decode (t.input.take bufferSize)) }, fs)
        else none
      | .eof => some ({ t with pc := .cleanup .eof }, fs)
      | .failed => some ({ t with pc := .cleanup .ioError }, fs)
    else none
  | .parse =>
    match t.pc with
    | .parse name =>
      if fs.exists? (baseName name) then some ({ t with pc := .cleanup .notFound }, fs)
      else some ({ t with filename := baseName name, pc := .create }, fs)
    | _ => none
  | .create ok =>
    if t.pc = .create then
      if ok && t.filename.all (· ≠ Char.ofNat 0) then
        let (fs', handle) := fs.create t.filename
        some ({ t with handle := handle, pc := .readSize }, fs')
      else some ({ t with pc := .cleanup .notFound }, fs)
    else none
  | .readSize r now =>
    if t.pc = .readSize then
      match r with
      | .ok =>
        if 8 ≤ t.input.length then
          some ({ t with input := t.input.drop 8, pc := loop (readLong (t.input.take 8)) now }, fs)
        else none
      | .eof => some ({ t with pc := .cleanup .eof }, fs)
      | .failed => some ({ t with pc := .cleanup .ioError }, fs)
    else none
  | .read r stored checked now =>
    match t.pc with
    | .receive size lastTime =>
      match r with
      | .got k =>
        if 0 < k ∧ k ≤ bufferSize ∧ k ≤ t.input.length then
          some (t.received fs k size lastTime stored checked now)
        else none
      | .closed => some ({ t with pc := .cleanup .ioError }, fs)
      | .tick =>
        match update now lastTime with
        | some _ => some (t, fs)
        | none => some ({ t with pc := .cleanup .timeout }, fs)
      | .failed => some ({ t with pc := .cleanup .ioError }, fs)
    | _ => none
  | .cleanup =>
    match t.pc with
    | .cleanup ending =>
      let fs' := if ending.requestCleanup && t.filename ≠ [] then fs.delete t.filename else fs
      some ({ t with pc := .respond ending }, fs')
    | _ => none
  | .respond =>
    match t.pc with
    | .respond ending => some ({ t with pc := .closed ending, success := true }, fs)
    | _ => none

/-- What a call can come to, one constructor for each way through `step`. -/
inductive Call (decode : List UInt8 → Name) (t : ConnectionTask) (fs : FileSystem) :
    Action → ConnectionTask → FileSystem → Prop
  | named (pc : t.pc = .readName) (le : bufferSize ≤ t.input.length) :
      Call decode t fs (.readName .ok) { t with
        input := t.input.drop bufferSize, pc := .parse (decode (t.input.take bufferSize)) } fs
  | unnamed {r : Fetch} {e : Ending} (pc : t.pc = .readName) (fails : r ≠ .ok)
      (ending : e = .eof ∨ e = .ioError) :
      Call decode t fs (.readName r) { t with pc := .cleanup e } fs
  | taken {name : Name} (pc : t.pc = .parse name) (old : fs.exists? (baseName name)) :
      Call decode t fs .parse { t with pc := .cleanup .notFound } fs
  | parsed {name : Name} (pc : t.pc = .parse name) (new : fs.exists? (baseName name) = false) :
      Call decode t fs .parse { t with filename := baseName name, pc := .create } fs
  | created (pc : t.pc = .create) (valid : t.filename.all (· ≠ Char.ofNat 0)) :
      Call decode t fs (.create true) { t with handle := (fs.create t.filename).2, pc := .readSize }
        (fs.create t.filename).1
  | refused {ok : Bool} (pc : t.pc = .create)
      (invalid : ¬ (ok ∧ t.filename.all (· ≠ Char.ofNat 0))) :
      Call decode t fs (.create ok) { t with pc := .cleanup .notFound } fs
  | sized {now : Int} (pc : t.pc = .readSize) (le : 8 ≤ t.input.length) :
      Call decode t fs (.readSize .ok now) { t with
        input := t.input.drop 8, pc := loop (readLong (t.input.take 8)) now } fs
  | unsized {r : Fetch} {now : Int} {e : Ending} (pc : t.pc = .readSize) (fails : r ≠ .ok)
      (ending : e = .eof ∨ e = .ioError) :
      Call decode t fs (.readSize r now) { t with pc := .cleanup e } fs
  | got {k : Nat} {size lastTime checked now : Int} {stored : Bool}
      (pc : t.pc = .receive size lastTime)
      (range : 0 < k ∧ k ≤ bufferSize ∧ k ≤ t.input.length) :
      Call decode t fs (.read (.got k) stored checked now)
        (t.received fs k size lastTime stored checked now).1
        (t.received fs k size lastTime stored checked now).2
  | ticked {size lastTime checked now : Int} {stored : Bool} (pc : t.pc = .receive size lastTime)
      (le : now - lastTime ≤ timeout) : Call decode t fs (.read .tick stored checked now) t fs
  | timedOut {size lastTime checked now : Int} {stored : Bool} (pc : t.pc = .receive size lastTime)
      (lt : timeout < now - lastTime) :
      Call decode t fs (.read .tick stored checked now) { t with pc := .cleanup .timeout } fs
  | broken {r : Answer} {size lastTime checked now : Int} {stored : Bool}
      (pc : t.pc = .receive size lastTime) (fails : r = .closed ∨ r = .failed) :
      Call decode t fs (.read r stored checked now) { t with pc := .cleanup .ioError } fs
  | deleted {e : Ending} (pc : t.pc = .cleanup e) (requested : e.requestCleanup)
      (name : t.filename ≠ []) :
      Call decode t fs .cleanup { t with pc := .respond e } (fs.delete t.filename)
  | kept {e : Ending} (pc : t.pc = .cleanup e) (unwanted : e.requestCleanup → t.filename = []) :
      Call decode t fs .cleanup { t with pc := .respond e } fs
  | responded {e : Ending} (pc : t.pc = .respond e) :
      Call decode t fs .respond { t with pc := .closed e, success := true } fs

theorem call_of_step {decode : List UInt8 → Name} {t t' : ConnectionTask} {fs fs' : FileSystem}
    {a : Action} (h : t.step decode fs a = some (t', fs')) : Call decode t fs a t' fs' := by
  cases a with
  | readName r =>
    simp only [step] at h
    split at h
    case isFalse => cases h
    case isTrue hpc =>
    cases r with
    | ok =>
      simp only at h
      split at h <;> cases h
      exact .named hpc ‹_›
    | eof =>
      cases h
      exact .unnamed hpc nofun (.inl rfl)
    | failed =>
      cases h
      exact .unnamed hpc nofun (.inr rfl)
  | parse =>
    simp only [step] at h
    split at h
    case h_2 => cases h
    case h_1 name hpc =>
    split at h <;> cases h
    · exact .taken hpc ‹_›
    · exact .parsed hpc (Bool.eq_false_iff.mpr ‹_›)
  | create ok =>
    simp only [step] at h
    split at h
    case isFalse => cases h
    case isTrue hpc =>
    split at h <;> cases h
    · rename_i hok
      obtain ⟨rfl, hvalid⟩ := Bool.and_eq_true_iff.mp hok
      exact .created hpc hvalid
    · rename_i hok
      exact .refused hpc (by simpa using hok)
  | readSize r now =>
    simp only [step] at h
    split at h
    case isFalse => cases h
    case isTrue hpc =>
    cases r with
    | ok =>
      simp only at h
      split at h <;> cases h
      exact .sized hpc ‹_›
    | eof =>
      cases h
      exact .unsized hpc nofun (.inl rfl)
    | failed =>
      cases h
      exact .unsized hpc nofun (.inr rfl)
  | read r stored checked now =>
    simp only [step] at h
    split at h
    case h_2 => cases h
    case h_1 size lastTime hpc =>
    cases r with
    | got k =>
      simp only at h
      split at h
      · have hcall : Call decode t fs (.read (.got k) stored checked now) _ _ := .got hpc ‹_›
        rwa [Option.some.inj h] at hcall
      · cases h
    | tick =>
      by_cases hlt : timeout < now - lastTime
      · simp only [update, gt_iff_lt, if_pos hlt, Option.some.injEq] at h
        cases h
        exact .timedOut hpc hlt
      · simp only [update, gt_iff_lt, if_neg hlt, Option.some.injEq] at h
        cases h
        exact .ticked hpc (by omega)
    | closed =>
      cases h
      exact .broken hpc (.inl rfl)
    | failed =>
      cases h
      exact .broken hpc (.inr rfl)
  | cleanup =>
    simp only [step] at h
    split at h <;> cases h
    rename_i e hpc
    split
    · rename_i hdel
      simp only [Bool.and_eq_true, decide_eq_true_eq] at hdel
      exact .deleted hpc hdel.1 hdel.2
    · rename_i hkeep
      exact .kept hpc (by simpa using hkeep)
  | respond =>
    simp only [step] at h
    split at h <;> cases h
    exact .responded ‹_›

/-- A task that was just given a connection on which the client sends `input`. -/
def accepted (input : List UInt8) : ConnectionTask := ⟨input, .readName, [], ⟨0, 0⟩, false⟩

end ConnectionTask

/-- One upload with the directory to itself. -/
structure Transfer where
  task : ConnectionTask
  fs : FileSystem

namespace Transfer

def step (decode : List UInt8 → Name) (s : Transfer) (a : ConnectionTask.Action) :
    Option Transfer :=
  (s.task.step decode s.fs a).map fun r => ⟨r.1, r.2⟩

def lts (decode : List UInt8 → Name) : LTS Transfer ConnectionTask.Action := .ofStep (step decode)

end Transfer

end NetworkLabs.Upload
