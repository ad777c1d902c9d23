import NetworkLabs.Upload.ConnectionTask

/-! When the stored file is the file that was sent. -/
namespace NetworkLabs.Upload

open Transition FileSystem

namespace ConnectionTask

/-- The bytes of the body that a call takes from the stream. -/
def Action.taken : Action → Nat
  | .read (.got k) _ _ _ => k
  | _ => 0

def taken (xs : List Action) : Nat := (xs.map Action.taken).sum

end ConnectionTask

namespace Transfer

open ConnectionTask

variable {decode : List UInt8 → Name} {s t : Transfer} {head body : List UInt8} {n m : Nat}
  {a : Action} {xs : List Action}

/-- The first `m` bytes of the body are in the file, and the others are still to come. -/
structure Storing (body : List UInt8) (m : Nat) (s : Transfer) : Prop where
  input : s.task.input = body.drop m
  le : m ≤ body.length
  stored : s.fs.uploads (entry s.task.filename) = some s.task.handle.file
  offset : s.task.handle.offset = m
  data : s.fs.data s.task.handle.file = body.take m

/-- The stream is a name block, a size and a body of which `m` bytes were taken. -/
def Progress (head body : List UInt8) (n m : Nat) (s : Transfer) : Prop :=
  match s.task.pc with
  | .readName => m = 0 ∧ s.task.input = head ++ (writeLong n ++ body)
  | .parse _ | .create => m = 0 ∧ s.task.input = writeLong n ++ body
  | .readSize => m = 0 ∧ s.task.input = writeLong n ++ body ∧
      s.fs.uploads (entry s.task.filename) = some s.task.handle.file ∧
        s.task.handle.offset = 0 ∧ s.fs.data s.task.handle.file = []
  | .receive size _ => Storing body m s ∧ size = n - m
  | .cleanup e | .respond e | .closed e => e = .completed →
      n ≤ m ∧ m ≤ body.length ∧ s.fs.content s.task.filename = some (body.take m)

theorem Storing.progress_loop {task : ConnectionTask} {fs : FileSystem} (size lastTime : Int)
    (h : Storing body m ⟨task, fs⟩) (hsize : size = n - m) :
    Progress head body n m ⟨{ task with pc := loop size lastTime }, fs⟩ := by
  unfold loop
  split
  · exact ⟨⟨h.input, h.le, h.stored, h.offset, h.data⟩, hsize⟩
  · refine fun _ => ⟨by omega, h.le, ?_⟩
    have hstored := h.stored
    have hdata := h.data
    simp only at hstored hdata
    simp only [content, hstored, Option.map_some, hdata]

theorem storing_write {task : ConnectionTask} {fs : FileSystem} {k : Nat}
    (h : Storing body m ⟨task, fs⟩) (hk : k ≤ task.input.length) :
    Storing body (m + k) ⟨{ task with input := task.input.drop k
                                      handle := (fs.write task.handle (task.input.take k)).2 },
      (fs.write task.handle (task.input.take k)).1⟩ := by
  have hinput : task.input = body.drop m := h.input
  have hoffset : task.handle.offset = m := h.offset
  have hdata : fs.data task.handle.file = body.take m := h.data
  have hle : k ≤ body.length - m := by rwa [hinput, List.length_drop] at hk
  have hm : (body.take m).length = m := by
    have := h.le
    rw [List.length_take]
    omega
  have htake : (task.input.take k).length = k := by
    rw [List.length_take]
    omega
  refine ⟨?_, ?_, h.stored, ?_, ?_⟩
  · simp only [hinput, List.drop_drop]
  · have := h.le
    omega
  · simp only [write, hoffset, htake]
  · have hend := written_end (body.take m) ((body.drop m).take k)
    rw [hm] at hend
    simp only [write, Function.update_self, hdata, hoffset, hinput, hend]
    rw [List.take_add]

theorem progress_received {task : ConnectionTask} {fs : FileSystem} {k : Nat} {size lastTime : Int}
    {stored : Bool} {checked now : Int} (h : Storing body m ⟨task, fs⟩) (hsize : size = n - m)
    (hk : k ≤ task.input.length) :
    Progress head body n (m + k) ⟨(task.received fs k size lastTime stored checked now).1,
      (task.received fs k size lastTime stored checked now).2⟩ := by
  have hnext : ∀ lastTime', Progress head body n (m + k)
      ⟨{ task with input := task.input.drop k
                   handle := (fs.write task.handle (task.input.take k)).2
                   pc := loop (size - k) lastTime' },
        (fs.write task.handle (task.input.take k)).1⟩ := fun lastTime' =>
    (storing_write h hk).progress_loop (size - k) lastTime' (by omega)
  cases stored with
  | false => exact nofun
  | true =>
    simp only [received, if_true]
    split
    · cases update now lastTime with
      | none => exact nofun
      | some lastTime' => exact hnext lastTime'
    · exact hnext lastTime

/-- The file that was just opened is empty. -/
theorem create_spec (fs : FileSystem) (name : Name) :
    (fs.create name).1.uploads (entry name) = some (fs.create name).2.file ∧
      (fs.create name).2.offset = 0 ∧ (fs.create name).1.data (fs.create name).2.file = [] := by
  unfold create
  split
  · rename_i file h
    simp [h]
  · simp

theorem call_of_step (h : s.step decode a = some t) : Call decode s.task s.fs a t.task t.fs := by
  obtain ⟨out, hout, rfl⟩ := Option.map_eq_some_iff.mp h
  exact ConnectionTask.call_of_step hout

theorem progress_sized {now size : Int} (hn : n < 2 ^ 63) (hpc : s.task.pc = .readSize)
    (hsize : readLong (s.task.input.take 8) = size) (hs : Progress head body n m s) :
    Progress head body n m
      ⟨{ s.task with input := s.task.input.drop 8, pc := loop size now }, s.fs⟩ := by
  simp only [Progress, hpc] at hs
  obtain ⟨rfl, hinput, hstored, hoffset, hdata⟩ := hs
  have hlong : size = n := by
    rw [← hsize, hinput, List.take_left' (length_writeLong _), readLong_writeLong (by omega)
      (by omega)]
  have hstoring : Storing body 0 ⟨{ s.task with input := s.task.input.drop 8 }, s.fs⟩ := by
    refine ⟨?_, by omega, hstored, hoffset, by simpa using hdata⟩
    simp only [hinput, List.drop_left' (length_writeLong _), List.drop_zero]
  exact hstoring.progress_loop size now (by simpa using hlong)

theorem progress_step (hhead : head.length = bufferSize) (hn : n < 2 ^ 63)
    (h : s.step decode a = some t) (hs : Progress head body n m s) :
    Progress head body n (m + a.taken) t := by
  obtain ⟨task, fs⟩ := t
  cases call_of_step h with
  | named hpc =>
    simp only [Progress, hpc] at hs
    exact ⟨hs.1, by simp only [hs.2, List.drop_left' hhead]⟩
  | unnamed hpc fails ending | unsized hpc fails ending =>
    rcases ending with rfl | rfl <;> exact nofun
  | taken | refused | timedOut | broken => exact nofun
  | parsed hpc =>
    simp only [Progress, hpc] at hs
    exact hs
  | created hpc =>
    simp only [Progress, hpc] at hs
    exact ⟨hs.1, hs.2, create_spec s.fs s.task.filename⟩
  | sized hpc =>
    generalize hsize : readLong (s.task.input.take 8) = size
    exact progress_sized hn hpc hsize hs
  | got hpc range =>
    simp only [Progress, hpc] at hs
    exact progress_received hs.1 hs.2 range.2.2
  | ticked => exact hs
  | deleted hpc requested =>
    rintro rfl
    cases requested
  | kept hpc | responded hpc =>
    simp only [Progress, hpc] at hs
    exact hs

theorem progress_run (hhead : head.length = bufferSize) (hn : n < 2 ^ 63)
    (h : (lts decode).MTr s xs t) (hs : Progress head body n m s) :
    Progress head body n (m + taken xs) t := by
  induction h generalizing m with
  | refl => simpa [taken] using hs
  | stepL hstep _ ih => simpa [taken, Nat.add_assoc] using ih (progress_step hhead hn hstep hs)

/-- The server's side of an upload when the client writes `input`. -/
def start (input : List UInt8) (fs : FileSystem) : Transfer := ⟨.accepted input, fs⟩

/-- What was stored when the transfer ended normally. -/
theorem stored_of_completed (hhead : head.length = bufferSize) (hn : n < 2 ^ 63) {fs : FileSystem}
    (h : (lts decode).MTr (start (head ++ (writeLong n ++ body)) fs) xs t)
    (ht : t.task.pc = .closed .completed) :
    n ≤ taken xs ∧ taken xs ≤ body.length ∧
      t.fs.content t.task.filename = some (body.take (taken xs)) := by
  have hstart : Progress head body n 0 (start (head ++ (writeLong n ++ body)) fs) := ⟨rfl, rfl⟩
  have hend := progress_run hhead hn h hstart
  simp only [Progress, ht, Nat.zero_add] at hend
  exact hend trivial

/-- The transfer of a file ends normally when the calls come out as `xs`. -/
def Completes (decode : List UInt8 → Name) (string file : List UInt8) (reads : List Nat)
    (fs : FileSystem) (xs : List Action) (t : Transfer) : Prop :=
  ∃ input, Client.main string file reads = some input ∧
    (lts decode).MTr (start input fs) xs t ∧ t.task.pc = .closed .completed

/-- What is stored in the end are the bytes taken of what the client wrote. -/
theorem Completes.stored {string file : List UInt8} {reads : List Nat} {fs : FileSystem}
    (hn : file.length < 2 ^ 63) (h : Completes decode string file reads fs xs t) :
    string.length ≤ bufferSize ∧ file.length ≤ taken xs ∧
      taken xs ≤ (Client.body (Client.nameBlock string) file reads).length ∧
      t.fs.content t.task.filename =
        some ((Client.body (Client.nameBlock string) file reads).take (taken xs)) := by
  obtain ⟨input, hinput, hrun, ht⟩ := h
  unfold Client.main at hinput
  split at hinput <;> cases hinput
  rename_i hstring
  rw [List.append_assoc] at hrun
  exact ⟨hstring, stored_of_completed (Client.length_nameBlock hstring) hn hrun ht⟩

/-- A read that stores `k` bytes, with the clock standing still. -/
def calmRead (k : Nat) : Action := .read (.got k) true 0 0

/-- The calls of an upload whose body is read in these portions. -/
def script (ks : List Nat) : List Action :=
  [.readName .ok, .parse, .create true, .readSize .ok 0] ++
  (ks.map calmRead ++ [.cleanup, .respond])

theorem taken_script (ks : List Nat) : taken (script ks) = ks.sum := by
  have hreads : ∀ ks : List Nat, ((ks.map calmRead).map Action.taken).sum = ks.sum := by
    intro ks
    rw [List.map_map]
    exact congrArg List.sum (List.map_id ks)
  simp only [taken, script, List.map_append, List.sum_append, hreads]
  simp [Action.taken]

/-- Every portioning of the body that ends at the last byte or later is read to its end. -/
theorem mTr_reads (decode : List UInt8 → Name) {ks : List Nat} {size : Int}
    (hpc : s.task.pc = .receive size 0) (hk : ∀ k ∈ ks, 0 < k ∧ k ≤ bufferSize)
    (hlast : (ks.dropLast.sum : Int) < size) (hsum : size ≤ ks.sum)
    (hlen : ks.sum ≤ s.task.input.length) :
    ∃ t, (lts decode).MTr s (ks.map calmRead) t ∧ t.task.pc = .cleanup .completed := by
  induction ks generalizing s size with
  | nil =>
    simp only [List.dropLast_nil, List.sum_nil] at hlast hsum
    omega
  | cons k ks ih =>
    have hrange := hk k List.mem_cons_self
    rw [List.sum_cons] at hsum hlen
    have hguard : 0 < k ∧ k ≤ bufferSize ∧ k ≤ s.task.input.length := ⟨hrange.1, hrange.2, by omega⟩
    have hstep : Transfer.step decode s (calmRead k) = some
        ⟨{ s.task with input := s.task.input.drop k
                       handle := (s.fs.write s.task.handle (s.task.input.take k)).2
                       pc := loop (size - k) 0 },
          (s.fs.write s.task.handle (s.task.input.take k)).1⟩ := by
      simp only [Transfer.step, ConnectionTask.step, calmRead, hpc, if_pos hguard]
      rfl
    cases ks with
    | nil =>
      refine ⟨_, .stepL hstep .refl, ?_⟩
      simp only [List.sum_nil] at hsum
      simp only [loop, if_neg (show ¬ size - (k : Int) > 0 by omega)]
    | cons k' ks =>
      rw [List.dropLast_cons_cons, List.sum_cons] at hlast
      have hmore : size - (k : Int) > 0 := by omega
      simp only [loop, if_pos hmore] at hstep
      obtain ⟨t, ht, hend⟩ := ih (s := ⟨{ s.task with
          input := s.task.input.drop k
          handle := (s.fs.write s.task.handle (s.task.input.take k)).2
          pc := .receive (size - k) 0 }, (s.fs.write s.task.handle (s.task.input.take k)).1⟩)
        rfl (fun q hq => hk q (List.mem_cons_of_mem _ hq)) (by omega) (by omega) (by
          rw [List.length_drop]
          omega)
      exact ⟨t, .stepL hstep ht, hend⟩

theorem mTr_opening (body : List UInt8) {fs : FileSystem} (hhead : head.length = bufferSize)
    (hpos : 0 < n) (hn : n < 2 ^ 63) (hnew : fs.exists? (baseName (decode head)) = false)
    (hzero : (baseName (decode head)).all (· ≠ Char.ofNat 0)) :
    (lts decode).MTr (start (head ++ (writeLong n ++ body)) fs)
      [.readName .ok, .parse, .create true, .readSize .ok 0]
      ⟨⟨body, .receive n 0, baseName (decode head), (fs.create (baseName (decode head))).2, false⟩,
        (fs.create (baseName (decode head))).1⟩ := by
  have hname : Transfer.step decode (start (head ++ (writeLong n ++ body)) fs) (.readName .ok) =
      some ⟨⟨writeLong n ++ body, .parse (decode head), [], ⟨0, 0⟩, false⟩, fs⟩ := by
    have hle : bufferSize ≤ (head ++ (writeLong n ++ body)).length := by
      rw [List.length_append]
      omega
    simp only [Transfer.step, ConnectionTask.step, start, accepted, if_true, if_pos hle,
      List.drop_left' hhead, List.take_left' hhead, Option.map_some]
  have hparse : Transfer.step decode
      ⟨⟨writeLong n ++ body, .parse (decode head), [], ⟨0, 0⟩, false⟩, fs⟩ .parse =
        some ⟨⟨writeLong n ++ body, .create, baseName (decode head), ⟨0, 0⟩, false⟩, fs⟩ := by
    simp [Transfer.step, ConnectionTask.step, hnew]
  have hcreate : Transfer.step decode
      ⟨⟨writeLong n ++ body, .create, baseName (decode head), ⟨0, 0⟩, false⟩, fs⟩ (.create true) =
        some ⟨⟨writeLong n ++ body, .readSize, baseName (decode head),
          (fs.create (baseName (decode head))).2, false⟩,
          (fs.create (baseName (decode head))).1⟩ := by
    simp only [Transfer.step, ConnectionTask.step, hzero, Bool.and_self, if_true, Option.map_some]
  have hsize : Transfer.step decode
      ⟨⟨writeLong n ++ body, .readSize, baseName (decode head),
        (fs.create (baseName (decode head))).2, false⟩, (fs.create (baseName (decode head))).1⟩
      (.readSize .ok 0) =
        some ⟨⟨body, .receive n 0, baseName (decode head), (fs.create (baseName (decode head))).2,
          false⟩, (fs.create (baseName (decode head))).1⟩ := by
    have hle : 8 ≤ (writeLong n ++ body).length := by
      rw [List.length_append, length_writeLong]
      omega
    have hmore : (n : Int) > 0 := by omega
    simp only [Transfer.step, ConnectionTask.step, if_true, if_pos hle,
      List.drop_left' (length_writeLong _), List.take_left' (length_writeLong _),
      readLong_writeLong (v := n) (by omega) (by omega), loop, if_pos hmore, Option.map_some]
  exact .stepL hname (.stepL hparse (.stepL hcreate (.stepL hsize .refl)))

theorem mTr_closing (h : s.task.pc = .cleanup .completed) :
    (lts decode).MTr s [.cleanup, .respond]
      ⟨{ s.task with pc := .closed .completed, success := true }, s.fs⟩ := by
  have hcleanup : Transfer.step decode s .cleanup =
      some ⟨{ s.task with pc := .respond .completed }, s.fs⟩ := by
    simp [Transfer.step, ConnectionTask.step, h, Ending.requestCleanup]
  exact .stepL hcleanup (.stepL rfl .refl)

/-- Uploads do end: for a name that can be created, with any reads of the client and any
portioning on the server. -/
theorem completes_script {string file : List UInt8} {reads ks : List Nat} {fs : FileSystem}
    (hstring : string.length ≤ bufferSize) (hn : file.length < 2 ^ 63)
    (hreads : FileReads file.length reads)
    (hnew : fs.exists? (baseName (decode (Client.nameBlock string))) = false)
    (hzero : (baseName (decode (Client.nameBlock string))).all (· ≠ Char.ofNat 0))
    (hk : ∀ k ∈ ks, 0 < k ∧ k ≤ bufferSize) (hlast : ks.dropLast.sum < file.length)
    (hsum : file.length ≤ ks.sum) (hlen : ks.sum ≤ bufferSize * reads.length) :
    ∃ t, Completes decode string file reads fs (script ks) t := by
  have hblock := Client.length_nameBlock hstring
  have hbody : (Client.body (Client.nameBlock string) file reads).length =
    bufferSize * reads.length :=
    Client.length_body hblock fun r hr => (hreads.range r hr).2
  set body := Client.body (Client.nameBlock string) file reads
  set name := baseName (decode (Client.nameBlock string)) with hname
  have hmain : Client.main string file reads =
      some (Client.nameBlock string ++ (writeLong file.length ++ body)) := by
    rw [Client.main, if_pos hstring, List.append_assoc]
  obtain ⟨t, ht, hend⟩ := mTr_reads (s := ⟨⟨body, .receive file.length 0, name,
    (fs.create name).2, false⟩, (fs.create name).1⟩) decode rfl hk (by omega) (by omega)
    (by simp only; omega)
  have hopen := mTr_opening body hblock (by omega) hn hnew hzero
  exact ⟨_, _, hmain, hopen.append (ht.append (mTr_closing hend)), rfl⟩

/-- Whatever the file is, it is stored as it was sent exactly if the client's reads were full
and the server's reads end with the file. -/
theorem stored_exactly_iff {string : List UInt8} {reads : List Nat} {fs : FileSystem}
    (hn : n < 2 ^ 63) (hreads : FileReads n reads)
    (hdone : ∀ file : List UInt8, file.length = n →
    ∃ t, Completes decode string file reads fs xs t) :
    (∀ file : List UInt8, file.length = n → ∀ t, Completes decode string file reads fs xs t →
      t.fs.content t.task.filename = some file) ↔ FullReads reads ∧ taken xs = n := by
  constructor
  · intro h
    have hbody : ∀ file : List UInt8, file.length = n → string.length ≤ bufferSize ∧
        taken xs = n ∧ (Client.body (Client.nameBlock string) file reads).take n = file := by
      intro file hfile
      obtain ⟨t, ht⟩ := hdone file hfile
      obtain ⟨hstring, hge, hle, hcontent⟩ := ht.stored (hfile ▸ hn)
      have heq := Option.some.inj (hcontent.symm.trans (h file hfile t ht))
      have hlen := congrArg List.length heq
      rw [List.length_take, Nat.min_eq_left hle, hfile] at hlen
      exact ⟨hstring, hlen, hlen ▸ heq⟩
    obtain ⟨hstring, htaken, -⟩ := hbody (List.replicate n 0) List.length_replicate
    exact ⟨Client.fullReads_of_take_body (Client.length_nameBlock hstring) hreads
      fun file hfile => (hbody file hfile).2.2, htaken⟩
  · rintro ⟨hfull, htaken⟩ file hfile t ht
    subst hfile
    obtain ⟨hstring, -, -, hcontent⟩ := ht.stored hn
    rw [hcontent, htaken, Client.take_body (Client.length_nameBlock hstring) hreads hfull]

/-- `new String(bytes)` for bytes below 128. -/
def ascii (bs : List UInt8) : Name := bs.map fun b => Char.ofNat b.toNat

def noUploads : FileSystem := ⟨fun _ => none, fun _ => [], 0⟩

theorem baseName_a : baseName (ascii (Client.nameBlock [97])) = ['a'] := by decide +kernel

theorem fileReads_one : FileReads 1 [1] := ⟨by simp [bufferSize], rfl⟩

/-- Any file of one byte under the name `a`, however its padded block is cut. -/
theorem completes_a {file : List UInt8} {k : Nat} (hfile : file.length = 1) (hk : 0 < k)
    (hk' : k ≤ bufferSize) : ∃ t, Completes ascii [97] file [1] noUploads (script [k]) t := by
  apply completes_script (by decide) (by omega)
  · rw [hfile]
    exact fileReads_one
  · rw [baseName_a]
    decide
  · rw [baseName_a]
    decide
  · simpa using ⟨hk, hk'⟩
  · simp [hfile]
  · simpa [hfile, Nat.one_le_iff_ne_zero, Nat.pos_iff_ne_zero] using hk
  · simpa using hk'

theorem stored_exactly_iff_a : (FullReads [1] ∧ taken (script [1]) = 1) ∧
    ∀ file : List UInt8, file.length = 1 → ∀ t,
      Completes ascii [97] file [1] noUploads (script [1]) t →
        t.fs.content t.task.filename = some file := by
  have hcond : FullReads [1] ∧ taken (script [1]) = 1 := ⟨by simp [FullReads], taken_script [1]⟩
  refine ⟨hcond, (stored_exactly_iff (by decide) fileReads_one ?_).mpr hcond⟩
  intro file hfile
  exact completes_a hfile (by decide) (by decide)

/-- When the padded block of a one-byte file arrives in one piece, all of it is stored. -/
theorem not_stored_exactly_padded : FileReads 1 [1] ∧
    ∃ t, Completes ascii [97] [7] [1] noUploads (script [bufferSize]) t ∧
      ∃ stored, t.fs.content t.task.filename = some stored ∧ stored.length = bufferSize ∧
        stored ≠ [7] := by
  refine ⟨fileReads_one, ?_⟩
  have hseven : [(7 : UInt8)].length = 1 := rfl
  obtain ⟨t, ht⟩ := completes_a hseven (by decide) (Nat.le_refl bufferSize)
  obtain ⟨-, -, hle, hcontent⟩ := ht.stored (by decide)
  have hlen := List.length_take_of_le hle
  rw [taken_script, List.sum_singleton] at hlen hcontent
  refine ⟨t, ht, _, hcontent, hlen, fun h => ?_⟩
  rw [h] at hlen
  exact absurd hlen (by decide)

end Transfer

end NetworkLabs.Upload
