import Afs.Ops.Depth
import Afs.Ops.Opening
import Afs.Ops.Replies
import Afs.Ops.Script
import Afs.Table.Database

/-!
# Opens that fail or should fail

The client's own calls do not fail in this module, and anything may become of the attempts of the
remote calls and of their handlers. What an open leaves behind is fixed by the two answers and by
the error number. From this it is read off when its success means real content, when its failure
leaves the cache alone, and when it spares a change that the server does not have yet.
-/

namespace Afs

open Posix Interaction

section Outcomes

variable (env : Env) (junk : Junk) (path cache_path : Path) (s t : St)

/-- The bytes of the cached copy. -/
def St.copy : Option Bytes := (s.disk.look (getLocalPath path cache_path)).map (·.bytes)

/-- The server has the file. -/
def St.HasServed : Prop := s.server.fs.look (getServerPath path env.root_path) ≠ none

instance : Decidable (s.HasServed env path) := by unfold St.HasServed; infer_instance

/-- What an unanswered fetch leaves in the copy, by the error number. -/
def Client.leftover (errno : Int) : Bytes :=
  if 0 < errno then [] else Client.written (junk.beyond ++ junk.beyond) (sizeT (-2))

/-- What an open that returns `r` leaves behind. -/
structure St.Opened (r : Int) : Prop where
  /-- A fetch with an answer. -/
  answered : s.Fetches env junk path cache_path → ∀ m,
    (s.fetchedReply env path cache_path).1 = some m →
    r = 0 ∧ t.client.ht = s.client.ht.put (hashKey path) m.time ∧
      t.copy path cache_path = some (Client.copied junk path t.client.ht m)
  /-- A fetch without one. -/
  unanswered : s.Fetches env junk path cache_path →
    (s.fetchedReply env path cache_path).1 = none →
    (if 0 < (s.fetchedReply env path cache_path).2.client.proc.errno then r = -ENOENT else r = 0) ∧
      t.client.ht = s.client.ht ∧ t.copy path cache_path =
        some (Client.leftover junk (s.fetchedReply env path cache_path).2.client.proc.errno)
  /-- No fetch. -/
  kept : ¬ s.Fetches env junk path cache_path →
    (if s.HasCopy path cache_path then r = 0 else r = -EBADF) ∧
      t.client.ht = s.client.ht ∧ t.disk.look = s.disk.look

end Outcomes

section Programs

variable {env : Env} {junk : Junk} {p dir : Path} {s : St}

/-- Without an answer an open needs nothing of the cache directory. -/
theorem afsOpen_leaves {fh : Int} (hf : s.client.proc.faults = [])
    (h : s.Fetches env junk p dir) (hm : (s.fetchedReply env p dir).1 = none) :
    Prog.Yields env.exec (Client.afsOpen junk p dir fh) s fun r t =>
      (if 0 < (s.fetchedReply env p dir).2.client.proc.errno then r.1 = -ENOENT else r.1 = 0) ∧
      t.client.ht = s.client.ht ∧ DiskEffect s t [getLocalPath p dir] ∧
      t.copy p dir =
        some (Client.leftover junk (s.fetchedReply env p dir).2.client.proc.errno) := by
  refine (afsOpen_unanswered hf h hm).mono ?_
  rintro r t ⟨he, ht, g, hlook, hg⟩
  unfold Client.leftover St.copy
  split at hg
  · next hpos =>
    rw [if_pos hpos, if_pos hpos, hlook, Option.map_some, hg.2]
    exact ⟨hg.1, ht, he, rfl⟩
  · next hpos =>
    rw [if_neg hpos, if_neg hpos, hlook, Option.map_some, hg.2]
    exact ⟨hg.1, ht, he, rfl⟩

/-- An open always returns, and leaves one of these outcomes. -/
theorem afsOpen_opened {fh : Int} (hf : s.client.proc.faults = []) (hl : FlatDir dir s.disk) :
    Prog.Yields env.exec (Client.afsOpen junk p dir fh) s fun r t =>
      s.Opened env junk p dir t r.1 := by
  by_cases h : s.Fetches env junk p dir
  · cases hm : (s.fetchedReply env p dir).1 with
    | some m =>
        refine (afsOpen_answered hf hl h hm).mono ?_
        rintro r t ⟨hr, -, ht, g, hlook, hg⟩
        constructor
        · intro _ m' hm'
          obtain rfl := Option.some.inj (hm.symm.trans hm')
          exact ⟨hr, ht, by rw [St.copy, hlook, Option.map_some, hg]⟩
        · intro _ hn
          rw [hm] at hn
          cases hn
        · exact fun hn => absurd h hn
    | none =>
        refine (afsOpen_leaves hf h hm).mono ?_
        rintro r t ⟨hr, ht, -, hcopy⟩
        constructor
        · intro _ m hm'
          rw [hm] at hm'
          cases hm'
        · exact fun _ _ => ⟨hr, ht, hcopy⟩
        · exact fun hn => absurd h hn
  · by_cases hc : s.HasCopy p dir
    · have hn : ¬ s.Newer env junk p := by simpa only [St.Fetches, hc, if_true] using h
      refine (afsOpen_keeps hf hc hn).mono ?_
      rintro r t ⟨hr, he, ht⟩
      constructor
      · exact fun hy => absurd hy h
      · exact fun hy => absurd hy h
      · intro _
        rw [if_pos hc]
        exact ⟨hr, ht, funext fun q => he.disk.look q List.not_mem_nil⟩
    · have hn : ¬ s.CanCreate p dir := by simpa only [St.Fetches, hc, if_false] using h
      refine (afsOpen_stuck hf hc hn).mono ?_
      rintro r t ⟨hr, hd, ht⟩
      constructor
      · exact fun hy => absurd hy h
      · exact fun hy => absurd hy h
      · intro _
        rw [if_neg hc]
        exact ⟨hr, ht, congrArg Fs.look hd⟩

end Programs

/-! An open that succeeds should have given real content. -/

section Content

variable (env : Env) (junk : Junk) (path cache_path : Path) (s t : St)

instance : Decidable (s.CanCreate path cache_path) := by unfold St.CanCreate; infer_instance

instance : Decidable (s.Fetches env junk path cache_path) := by unfold St.Fetches; infer_instance

/-- An open that fetches is told that the server's handler did not open the file. -/
def St.Refused : Prop :=
  s.Fetches env junk path cache_path ∧
    ∃ m ∈ (s.fetchedReply env path cache_path).1, m.error ≠ 0

/-- The copy in `t` has the bytes of a fetch without error, or it is the one from before and the
server has confirmed it. -/
def St.RealCopy : Prop :=
  (s.Fetches env junk path cache_path ∧ ∃ m ∈ (s.fetchedReply env path cache_path).1,
    m.error = 0 ∧ t.copy path cache_path = some m.buf) ∨
  (¬ s.Fetches env junk path cache_path ∧ s.HasCopy path cache_path ∧
    (∃ a ∈ (s.asked env path).1, a.err = 0) ∧ t.copy path cache_path = s.copy path cache_path)

/-- An open succeeds only with real content, and if the server has no file or refuses it, the open
fails and records no time. -/
structure St.OpensOnlyContent (fh : Int) : Prop where
  content : ∀ r t, (Client.afsOpen junk path cache_path fh).run env.exec s = (some r, t) → r.1 = 0 →
    s.HasServed env path ∧ s.RealCopy env junk path cache_path t
  refused : ¬ s.HasServed env path ∨ s.Refused env junk path cache_path →
    ∃ r t, (Client.afsOpen junk path cache_path fh).run env.exec s = (some r, t) ∧ r.1 < 0 ∧
      t.client.ht.get path = s.client.ht.get path

/-- What an open writes from a reply is the reply's buffer: its size, cut to 32 bits, names the
buffer's length, and the copy is not the file that the table has just been written to. -/
def FetchReply.Fits (m : FetchReply) (ht : HashTable) : Prop :=
  if path = databasePath then Client.copied junk path ht m = m.buf
  else sizeT m.size.toInt = m.buf.length

instance (m : FetchReply) (ht : HashTable) : Decidable (m.Fits junk path ht) := by
  unfold FetchReply.Fits
  infer_instance

/-- When an open does what its success promises: a fetch gets a reply without error that fits, or no
reply and a positive error number; a copy that is kept is one of a file that the server has, and the
attributes came. -/
def St.OpenDelivers : Prop :=
  if s.Fetches env junk path cache_path then
    (∀ m ∈ (s.fetchedReply env path cache_path).1,
      m.error = 0 ∧ m.Fits junk path (s.client.ht.put (hashKey path) m.time)) ∧
    ((s.fetchedReply env path cache_path).1 = none →
      0 < (s.fetchedReply env path cache_path).2.client.proc.errno)
  else
    s.HasCopy path cache_path → s.HasServed env path ∧ ∃ a ∈ (s.asked env path).1, a.err = 0

end Content

section Programs

variable {env : Env} {junk : Junk} {p dir : Path} {s : St} {m : FetchReply} {ht : HashTable}

theorem Client.written_append {b x : Bytes} : Client.written (b ++ x) b.length = b := by
  have hle : ¬ (b ++ x).length < b.length := by
    rw [List.length_append]
    omega
  rw [Client.written, if_neg hle, List.take_left]

/-- For a reply of the server's handler, fitting is what it takes. -/
theorem FetchReply.copied_eq_iff (hsize : m.size = Int32.ofInt m.buf.length) :
    Client.copied junk p ht m = m.buf ↔ m.Fits junk p ht := by
  unfold Fits
  by_cases hp : p = databasePath
  · rw [if_pos hp]
  · rw [if_neg hp, Client.copied, if_neg hp, List.nil_append]
    constructor
    · intro he
      unfold Client.written at he
      split at he
      · next hlt =>
        rw [hsize, ← he] at hlt
        exact absurd hlt (Nat.not_lt_zero _)
      · next hle =>
        have hlen := congrArg List.length he
        rw [List.length_take, List.length_append] at hlen
        rw [List.length_append] at hle
        omega
    · intro he
      rw [he, Client.written_append]

/-- Below 31 bits of length, the one copy that a reply does not fit is the one of the database file. -/
theorem FetchReply.fits_iff_of_short {key value : Int64} (hsize : m.size = Int32.ofInt m.buf.length)
    (hlen : m.buf.length < 2 ^ 31) : m.Fits junk p (ht.put key value) ↔ p ≠ databasePath := by
  have hn : sizeT m.size.toInt = m.buf.length := by
    rw [hsize, Int32.toInt_ofInt_of_le (by omega) (by omega)]
    exact sizeT_natCast (by omega)
  unfold Fits
  by_cases hp : p = databasePath
  · rw [if_pos hp, Client.copied, if_pos hp, hn, Client.written_append]
    constructor
    · intro he
      exact absurd (List.append_left_eq_self.mp he) (dumpText_put_ne _ _ _)
    · exact fun hne => absurd hp hne
  · rw [if_neg hp]
    exact ⟨fun _ => hp, fun _ => hn⟩

/-- What the answer to the fetch of an open says. -/
theorem St.fetchedReply_answer (h : (s.fetchedReply env p dir).1 = some m) :
    (∃ t : Timespec, m.time = Int64.ofNat t.tv_nsec) ∧
    (m.error ≠ 0 ∨ m.error = 0 ∧ m.size = Int32.ofInt m.buf.length ∧ s.HasServed env p) := by
  have hlook : (s.fetchFrom env p dir).server.fs.look = s.server.fs.look := by
    unfold St.fetchFrom
    split
    · exact Env.retryLoop_look (r := .getattr p) trivial _ _
    · rfl
  obtain ⟨ht, hm⟩ := Env.fetch_answer h
  refine ⟨ht, hm.imp ?_ ?_⟩
  · rintro ⟨he, -⟩
    rw [he]
    decide
  · rintro ⟨he, hsize, hn⟩
    rw [hlook] at hn
    exact ⟨he, hsize, hn⟩

/-- What an open that returned `r` should have kept to. -/
def St.Kept (env : Env) (junk : Junk) (p dir : Path) (s t : St) (r : Int) : Prop :=
  (r = 0 → s.HasServed env p ∧ s.RealCopy env junk p dir t) ∧
    (¬ s.HasServed env p ∨ s.Refused env junk p dir →
      r < 0 ∧ t.client.ht.get p = s.client.ht.get p)

/-- The promise of an open, read at its result. -/
private theorem opensOnlyContent_iff_kept {fh : Int} {r : Int × Int} {t : St}
    (hrun : (Client.afsOpen junk p dir fh).run env.exec s = (some r, t)) :
    s.OpensOnlyContent env junk p dir fh ↔ s.Kept env junk p dir t r.1 := by
  constructor
  · rintro ⟨hcontent, hrefused⟩
    refine ⟨hcontent r t hrun, fun h => ?_⟩
    obtain ⟨r', t', hrun', hneg⟩ := hrefused h
    obtain ⟨hr, rfl⟩ := Prod.mk.inj (hrun'.symm.trans hrun)
    exact Option.some.inj hr ▸ hneg
  · rintro ⟨hcontent, hrefused⟩
    refine ⟨fun r' t' hrun' => ?_, fun h => ⟨r, t, hrun, hrefused h⟩⟩
    obtain ⟨hr, rfl⟩ := Prod.mk.inj (hrun'.symm.trans hrun)
    exact Option.some.inj hr ▸ hcontent

section Cases

variable {t : St} {r : Int}

/-- An answered fetch keeps to the promise when the reply is one without error that fits. -/
private theorem kept_iff_of_answered (ho : s.Opened env junk p dir t r)
    (h : s.Fetches env junk p dir) (hm : (s.fetchedReply env p dir).1 = some m) :
    s.Kept env junk p dir t r ↔
      m.error = 0 ∧ m.Fits junk p (s.client.ht.put (hashKey p) m.time) := by
  obtain ⟨hr, ht, hcopy⟩ := ho.answered h m hm
  obtain ⟨-, hcase⟩ := St.fetchedReply_answer hm
  rw [ht] at hcopy
  constructor
  · rintro ⟨hcontent, -⟩
    obtain ⟨-, ⟨-, m', hm', he, hbuf⟩ | ⟨hn, -⟩⟩ := hcontent hr
    · obtain rfl := Option.some.inj (hm.symm.trans hm')
      rcases hcase with hne | ⟨-, hsize, -⟩
      · exact absurd he hne
      · exact ⟨he, (FetchReply.copied_eq_iff hsize).mp (Option.some.inj (hcopy.symm.trans hbuf))⟩
    · exact absurd h hn
  · rintro ⟨he, hfit⟩
    rcases hcase with hne | ⟨-, hsize, hserved⟩
    · exact absurd he hne
    · refine ⟨fun _ => ⟨hserved, Or.inl ⟨h, m, hm, he, ?_⟩⟩, ?_⟩
      · rw [hcopy, (FetchReply.copied_eq_iff hsize).mpr hfit]
      · rintro (hn | ⟨-, m', hm', hne⟩)
        · exact absurd hserved hn
        · obtain rfl := Option.some.inj (hm.symm.trans hm')
          exact absurd he hne

/-- An unanswered fetch keeps to the promise when the error number makes it fail. -/
private theorem kept_iff_of_unanswered (ho : s.Opened env junk p dir t r)
    (h : s.Fetches env junk p dir) (hm : (s.fetchedReply env p dir).1 = none) :
    s.Kept env junk p dir t r ↔ 0 < (s.fetchedReply env p dir).2.client.proc.errno := by
  obtain ⟨hr, ht, -⟩ := ho.unanswered h hm
  split at hr
  · next hpos =>
    have hneg : r < 0 := by
      rw [hr]
      decide
    exact ⟨fun _ => hpos, fun _ => ⟨fun h0 => by omega, fun _ => ⟨hneg, by rw [ht]⟩⟩⟩
  · next hpos =>
    refine ⟨?_, fun h => absurd h hpos⟩
    rintro ⟨hcontent, -⟩
    obtain ⟨-, ⟨-, m', hm', -⟩ | ⟨hn, -⟩⟩ := hcontent hr
    · rw [hm] at hm'
      cases hm'
    · exact absurd h hn

/-- An open that does not fetch keeps to the promise when it fails, or when the copy it keeps is of a
file that the server has and has told about. -/
private theorem kept_iff_of_not_fetches (ho : s.Opened env junk p dir t r)
    (h : ¬ s.Fetches env junk p dir) :
    s.Kept env junk p dir t r ↔
      (s.HasCopy p dir → s.HasServed env p ∧ ∃ a ∈ (s.asked env p).1, a.err = 0) := by
  obtain ⟨hr, ht, hlook⟩ := ho.kept h
  have hcopy : t.copy p dir = s.copy p dir := by rw [St.copy, hlook, St.copy]
  split at hr
  · next hc =>
    constructor
    · rintro ⟨hcontent, -⟩ _
      obtain ⟨hserved, ⟨hy, -⟩ | ⟨-, -, ha, -⟩⟩ := hcontent hr
      · exact absurd hy h
      · exact ⟨hserved, ha⟩
    · intro hd
      obtain ⟨hserved, ha⟩ := hd hc
      refine ⟨fun _ => ⟨hserved, Or.inr ⟨h, hc, ha, hcopy⟩⟩, ?_⟩
      rintro (hn | ⟨hy, -⟩)
      · exact absurd hserved hn
      · exact absurd hy h
  · next hc =>
    have hneg : r < 0 := by
      rw [hr]
      decide
    exact ⟨fun _ hy => absurd hy hc, fun _ => ⟨fun h0 => by omega, fun _ => ⟨hneg, by rw [ht]⟩⟩⟩

end Cases

/-- An open keeps the promise of its success exactly when it delivers. -/
theorem St.opensOnlyContent_iff {fh : Int} (hf : s.client.proc.faults = [])
    (hl : FlatDir dir s.disk) :
    s.OpensOnlyContent env junk p dir fh ↔ s.OpenDelivers env junk p dir := by
  have hyields : Prog.Yields env.exec (Client.afsOpen junk p dir fh) s fun r t =>
    s.Opened env junk p dir t r.1 := afsOpen_opened hf hl
  obtain ⟨r, t, hrun, ho⟩ := hyields
  rw [opensOnlyContent_iff_kept hrun]
  unfold St.OpenDelivers
  by_cases h : s.Fetches env junk p dir
  · rw [if_pos h]
    cases hm : (s.fetchedReply env p dir).1 with
    | some m =>
        rw [kept_iff_of_answered ho h hm]
        simp
    | none =>
        rw [kept_iff_of_unanswered ho h hm]
        simp
  · rw [if_neg h, kept_iff_of_not_fetches ho h]

end Programs

namespace World

variable {ι : Type} [DecidableEq ι] {P : Params ι} {w : World ι}

/-- In every state that the mounted file systems lead to, whatever becomes of the attempts of an open,
it keeps the promise of its success exactly when it delivers. -/
theorem open_succeeds_with_content_iff (hw : w.Mounted P) (i : ι) (now : Timespec)
    (net : List Delivery) (junk : Junk) (p : Path) (fh : Int) :
    (w.state i now [] net).OpensOnlyContent ⟨P.root_path, junk⟩ junk p (P.cache_path i) fh ↔
      (w.state i now [] net).OpenDelivers ⟨P.root_path, junk⟩ junk p (P.cache_path i) :=
  St.opensOnlyContent_iff rfl (hw.cacheDir i).toFlatDir

/-- An open that reaches the server at its third attempt. -/
theorem open_succeeds_with_content_sample :
    (sampleBoot.state false (sampleTime 1 0) [] [.lost 110, .replyLost { junk := .zero } 0]
      ).OpensOnlyContent ⟨cstr "/srv", .zero⟩ .zero sampleFile (cstr "/cache") 0 := by
  have hboot : sampleBoot.Mounted sample := ⟨_, [], Transition.Run.nil⟩
  refine (open_succeeds_with_content_iff hboot false (sampleTime 1 0) _ .zero sampleFile 0).mpr ?_
  unfold St.OpenDelivers
  decide +kernel

/-- A server without the file answers the fetch with an error in an OK reply, and the open
succeeds. -/
theorem open_succeeds_without_file :
    ¬ ((boot sample [] : World (Bool)).state false (sampleTime 1 0) [] []).OpensOnlyContent
      ⟨cstr "/srv", .zero⟩ .zero sampleFile (cstr "/cache") 0 := by
  rintro ⟨hcontent, -⟩
  have hret : ((Client.afsOpen .zero sampleFile (cstr "/cache") 0).run
      (Env.exec ⟨cstr "/srv", .zero⟩)
      ((boot sample [] : World (Bool)).state false (sampleTime 1 0) [] [])).1.map (·.1) = some 0 := by
    decide +kernel
  obtain ⟨r, hr, h0⟩ := Option.map_eq_some_iff.mp hret
  exact (hcontent r _ (Prod.ext hr rfl) h0).1 (by decide +kernel)

end World

/-! An open that fails should have left the cache alone. -/

/-- Every name has the same bytes, and the table is the same. -/
structure St.SameCache (s t : St) : Prop where
  files : ∀ q, (t.disk.look q).map (·.bytes) = (s.disk.look q).map (·.bytes)
  table : t.client.ht = s.client.ht

section Failed

variable (env : Env) (junk : Junk) (p dir : Path) (s : St)

/-- The fetch of an open gets no reply. -/
def St.FetchFails : Prop := s.Fetches env junk p dir ∧ (s.fetchedReply env p dir).1 = none

/-- An open that fails for want of a reply leaves the cache as it was. -/
def St.FailedOpenSpares (fh : Int) : Prop :=
  ∀ r t, (Client.afsOpen junk p dir fh).run env.exec s = (some r, t) → r.1 < 0 →
    s.FetchFails env junk p dir → s.SameCache t

variable {env junk p dir s}

/-- An open that fails for want of a reply leaves the cache as it was exactly when there was an empty
copy already. -/
theorem St.failedOpenSpares_iff {fh : Int} (hf : s.client.proc.faults = []) :
    s.FailedOpenSpares env junk p dir fh ↔
      (s.FetchFails env junk p dir → 0 < (s.fetchedReply env p dir).2.client.proc.errno →
        s.copy p dir = some []) := by
  constructor
  · intro hspares hfails hpos
    have hyields : Prog.Yields env.exec (Client.afsOpen junk p dir fh) s _ :=
      afsOpen_leaves hf hfails.1 hfails.2
    obtain ⟨r, t, hrun, hr, -, -, hcopy⟩ := hyields
    rw [if_pos hpos] at hr
    have hneg : r.1 < 0 := by
      rw [hr]
      decide
    have hfiles := (hspares r t hrun hneg hfails).files (getLocalPath p dir)
    rw [Client.leftover, if_pos hpos] at hcopy
    exact hfiles.symm.trans hcopy
  · intro hempty r t hrun hneg hfails
    obtain ⟨hr, ht, he, hcopy⟩ := (afsOpen_leaves hf hfails.1 hfails.2).of_run hrun
    by_cases hpos : 0 < (s.fetchedReply env p dir).2.client.proc.errno
    · rw [Client.leftover, if_pos hpos] at hcopy
      refine ⟨fun q => ?_, ht⟩
      by_cases hq : q = getLocalPath p dir
      · subst hq
        exact hcopy.trans (hempty hfails hpos).symm
      · rw [he.disk.look q (by simpa only [List.mem_singleton] using hq)]
    · rw [if_neg hpos] at hr
      omega

end Failed

namespace World

variable {ι : Type} [DecidableEq ι] {P : Params ι} {w w' : World ι}

/-- The fetch of a file that is not cached, with six attempts that all fail. -/
def unreachable (sec : Nat) : Call (Bool) := sampleCall false sec .openF (List.replicate 6 (.lost 110))

/-- The first open that fails leaves an empty copy, and with it the next one changes nothing. -/
theorem failed_open_spares_second :
    ∃ w, sampleBoot.step sample (.call (unreachable 1)) = some w ∧
      (w.state false (sampleTime 2 0) [] (unreachable 2).net).FailedOpenSpares
        ⟨cstr "/srv", .zero⟩ .zero sampleFile (cstr "/cache") 0 := by
  have h : (sampleBoot.step sample (.call (unreachable 1))).map
      (fun w => w.cached sample false sampleFile) = some (some []) := by
    decide +kernel
  obtain ⟨w, hw, hcached⟩ := Option.map_eq_some_iff.mp h
  exact ⟨w, hw, (St.failedOpenSpares_iff rfl).mpr fun _ _ => hcached⟩

/-- The first open that fails has made a copy. -/
theorem failed_open_leaves_copy :
    ¬ (sampleBoot.state false (sampleTime 1 0) [] (unreachable 1).net).FailedOpenSpares
      ⟨cstr "/srv", .zero⟩ .zero sampleFile (cstr "/cache") 0 := by
  intro hspares
  have h : ((Client.afsOpen .zero sampleFile (cstr "/cache") 0).run (Env.exec ⟨cstr "/srv", .zero⟩)
      (sampleBoot.state false (sampleTime 1 0) [] (unreachable 1).net)).1.map (·.1) = some (-2) := by
    decide +kernel
  obtain ⟨r, hr, hneg⟩ := Option.map_eq_some_iff.mp h
  have hfails : (sampleBoot.state false (sampleTime 1 0) [] (unreachable 1).net).FetchFails
      ⟨cstr "/srv", .zero⟩ .zero sampleFile (cstr "/cache") := by
    unfold St.FetchFails
    decide +kernel
  have hsame := (hspares r _ (Prod.ext hr rfl) (by omega) hfails).files (cstr "/cache/f")
  revert hsame
  decide +kernel

end World

/-! An open of a modified copy should have left it alone. -/

section Unsent

variable (env : Env) (junk : Junk) (p dir : Path) (s : St)

/-- When an open does not touch a modified copy: there is none and none can be made, or no attributes
come and the unset time is not greater than the flag, or the fetch leaves what was there. -/
def St.OpenIdles : Prop :=
  (¬ s.HasCopy p dir ∧ ¬ s.CanCreate p dir) ∨
  (s.HasCopy p dir ∧ (∀ a ∈ (s.asked env p).1, a.err ≠ 0) ∧
    junk.stats.st_mtime ≤ modifiedFlag.toInt) ∨
  (s.FetchFails env junk p dir ∧ s.copy p dir =
    some (Client.leftover junk (s.fetchedReply env p dir).2.client.proc.errno))

variable {env junk p dir s}

/-- The attributes of a file are always newer than the flag. -/
theorem St.not_newer_iff_of_flag (hflag : s.client.ht.get p = modifiedFlag) :
    ¬ s.Newer env junk p ↔
      (∀ a ∈ (s.asked env p).1, a.err ≠ 0) ∧ junk.stats.st_mtime ≤ modifiedFlag.toInt := by
  unfold St.Newer
  rw [hflag, gt_iff_lt, not_lt]
  cases ha : (s.asked env p).1 with
  | none => simp [Client.seen]
  | some a =>
      have htime : 0 ≤ a.mtime.toInt := Env.getattr_answer ha
      have hneg : modifiedFlag.toInt < 0 := by decide
      by_cases herr : a.err = 0
      · constructor
        · intro hle
          simp only [Client.seen, herr, ne_eq, not_true, if_false] at hle
          change a.mtime.toInt ≤ _ at hle
          omega
        · exact fun h => absurd herr (h.1 a rfl)
      · simp [Client.seen, herr]

/-- An open of a modified copy leaves its bytes and the flag exactly when it idles. -/
theorem St.opened_keeps_flag_iff {r : Int} {t : St} (hflag : s.client.ht.get p = modifiedFlag)
    (ho : s.Opened env junk p dir t r) :
    (t.copy p dir = s.copy p dir ∧ t.client.ht.get p = modifiedFlag) ↔
      s.OpenIdles env junk p dir := by
  by_cases h : s.Fetches env junk p dir
  · have hidle : s.OpenIdles env junk p dir ↔ s.FetchFails env junk p dir ∧ s.copy p dir =
        some (Client.leftover junk (s.fetchedReply env p dir).2.client.proc.errno) := by
      refine ⟨?_, fun hfails => Or.inr (Or.inr hfails)⟩
      rintro (⟨hc, hn⟩ | ⟨hc, hn⟩ | hfails)
      · simp only [St.Fetches, hc, if_false] at h
        exact absurd h hn
      · simp only [St.Fetches, hc, if_true] at h
        exact absurd h ((St.not_newer_iff_of_flag hflag).mpr hn)
      · exact hfails
    rw [hidle]
    cases hm : (s.fetchedReply env p dir).1 with
    | some m =>
        obtain ⟨-, ht, -⟩ := ho.answered h m hm
        obtain ⟨⟨time, htime⟩, -⟩ := St.fetchedReply_answer hm
        constructor
        · rintro ⟨-, hget⟩
          rw [ht, HashTable.get_put_self, htime] at hget
          exact absurd hget (time_ne_modifiedFlag time)
        · rintro ⟨⟨-, hn⟩, -⟩
          rw [hm] at hn
          cases hn
    | none =>
        obtain ⟨-, ht, hcopy⟩ := ho.unanswered h hm
        rw [ht, hcopy]
        exact ⟨fun he => ⟨⟨h, hm⟩, he.1.symm⟩, fun he => ⟨he.2.symm, hflag⟩⟩
  · obtain ⟨-, ht, hlook⟩ := ho.kept h
    refine iff_of_true ⟨by rw [St.copy, hlook, St.copy], by rw [ht, hflag]⟩ ?_
    by_cases hc : s.HasCopy p dir
    · simp only [St.Fetches, hc, if_true] at h
      exact Or.inr (Or.inl ⟨hc, (St.not_newer_iff_of_flag hflag).mp h⟩)
    · simp only [St.Fetches, hc, if_false] at h
      exact Or.inl ⟨hc, h⟩

end Unsent

namespace World

variable {ι : Type} [DecidableEq ι] {P : Params ι} {w w' : World ι}

/-- After an open of a file whose entry is the flag, in any state that the mounted file systems lead
to, the cached bytes and the flag are still there exactly when the open idled. -/
theorem open_spares_change_iff {c : Call ι} (hw : w.Mounted P) (hop : c.op = .openF)
    (hf : c.faults = []) (hflag : w.recorded c.client c.path = modifiedFlag)
    (hs : w.step P (.call c) = some w') :
    (w'.cached P c.client c.path = w.cached P c.client c.path ∧
        w'.recorded c.client c.path = modifiedFlag) ↔
      (w.state c.client c.now c.faults c.net).OpenIdles ⟨P.root_path, c.junk⟩ c.junk c.path
        (P.cache_path c.client) := by
  obtain ⟨x, hperf, rfl⟩ := Option.map_eq_some_iff.mp hs
  obtain ⟨-, fh, -, rfl⟩ := perform_eq_some.mp hperf
  have hyields : Prog.Yields (Env.exec ⟨P.root_path, c.junk⟩)
      (Client.afsOpen c.junk c.path (P.cache_path c.client) fh)
      (w.state c.client c.now c.faults c.net) _ :=
    afsOpen_opened hf (hw.cacheDir c.client).toFlatDir
  obtain ⟨r, t, hrun, ho⟩ := hyields
  have hprog : (c.op.prog c.junk c.path (P.cache_path c.client) fh).run
      (Env.exec ⟨P.root_path, c.junk⟩) (w.state c.client c.now c.faults c.net) =
        (some { ret := r.1, fh := r.2 }, t) := by
    rw [hop, Op.prog, Prog.run_bind, hrun]
    rfl
  have hget : (w.state c.client c.now c.faults c.net).client.ht.get c.path = modifiedFlag := hflag
  rw [cached, disk, recorded, clients_finish_self, hprog]
  exact St.opened_keeps_flag_iff hget ho

/-- A file is opened and written to, and another session opens it. -/
def unsent : List (Event (Bool)) :=
  [.call (sampleCall false 1 .openF []), .call (sampleCall false 2 (.write 0 [7] 0) [])]

/-- What holds after the script. -/
theorem exists_unsent {f : World (Bool) → Bool} (h : (unsent.foldlM
      (fun (w : World (Bool)) (e : Event (Bool)) => if e.Absolute then w.step sample e else none)
      sampleBoot).map f = some true) :
    ∃ w : World (Bool), w.Mounted sample ∧ f w = true := by
  obtain ⟨w, hfold, hw⟩ := Option.map_eq_some_iff.mp h
  exact ⟨w, ⟨_, _, Transition.Run.of_foldlM hfold⟩, hw⟩

/-- Unset memory in which the attributes are from before the epoch. -/
def earlyJunk : Junk := { Junk.zero with stats := { Junk.zero.stats with st_mtim := .ofSec (-20000000) } }

/-- When no attributes come and the unset time is small enough, the write is spared. -/
theorem open_spares_change_unanswered :
    ∃ w w' : World (Bool), w.Mounted sample ∧
      w.step sample (.call { unreachable 3 with junk := earlyJunk }) = some w' ∧
      w.cached sample false sampleFile = some [7] ∧ w'.cached sample false sampleFile = some [7] ∧
      w'.recorded false sampleFile = modifiedFlag := by
  let c : Call (Bool) := { unreachable 3 with junk := earlyJunk }
  obtain ⟨w, hw, h⟩ : ∃ w : World (Bool), w.Mounted sample ∧
      decide (w.recorded false sampleFile = modifiedFlag ∧
        w.cached sample false sampleFile = some [7] ∧ (w.step sample (.call c)).isSome = true ∧
        (w.state false c.now c.faults c.net).HasCopy sampleFile (cstr "/cache") ∧
        ∀ a ∈ ((w.state false c.now c.faults c.net).asked ⟨cstr "/srv", earlyJunk⟩ sampleFile).1,
          a.err ≠ 0) = true :=
    exists_unsent (by decide +kernel)
  obtain ⟨hflag, hcached, hstep, hcopy, hnone⟩ := of_decide_eq_true h
  obtain ⟨w', hs⟩ := Option.isSome_iff_exists.mp hstep
  have hidle : (w.state false c.now c.faults c.net).OpenIdles ⟨cstr "/srv", earlyJunk⟩ earlyJunk sampleFile
      (cstr "/cache") := Or.inr (Or.inl ⟨hcopy, hnone, by decide⟩)
  obtain ⟨hsame, hflag'⟩ := (open_spares_change_iff hw rfl rfl hflag hs).mpr hidle
  exact ⟨w, w', hw, hs, hcached, hsame.trans hcached, hflag'⟩

/-- Otherwise a second open fetches the old bytes over the write and clears the flag. -/
theorem second_open_discards_write :
    ∃ w w' : World (Bool), w.Mounted sample ∧
      w.step sample (.call (sampleCall false 3 .openF [])) = some w' ∧
      w.recorded false sampleFile = modifiedFlag ∧ w.cached sample false sampleFile = some [7] ∧
      w'.recorded false sampleFile = 500 ∧ w'.cached sample false sampleFile = some [1] := by
  obtain ⟨w, hw, h⟩ := exists_unsent (f := fun w =>
    decide (w.recorded false sampleFile = modifiedFlag ∧ w.cached sample false sampleFile = some [7]) &&
    ((w.step sample (.call (sampleCall false 3 .openF []))).any fun w' : World (Bool) =>
      decide (w'.recorded false sampleFile = 500 ∧ w'.cached sample false sampleFile = some [1])))
    (by decide +kernel)
  rw [Bool.and_eq_true, Option.any_eq_true] at h
  obtain ⟨hbefore, w', hs, hafter⟩ := h
  obtain ⟨hflag, hcached⟩ := of_decide_eq_true hbefore
  exact ⟨w, w', hw, hs, hflag, hcached, of_decide_eq_true hafter⟩

end World

end Afs
