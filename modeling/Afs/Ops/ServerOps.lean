import Afs.Core.Names
import Afs.Model.Server

/-!
# What the handlers do to the files

Total correctness of the handlers run without interruption and without failing calls: the reply,
the files that the server's names stand for afterwards, and that nothing else changed.
-/

namespace Afs

namespace Server

open Posix Interaction

variable (junk : Junk) (root_path : Path)

/-- A store replaces the whole file and reports the time of the replacement. -/
theorem afsStore_yields {s : Proc} (request : StoreReq) (hf : s.faults = [])
    (hsize : request.size.toInt = request.buf.length)
    (hd : s.fs.isDir (getServerPath request.path root_path) = false)
    (hp : s.fs.look (getServerPath request.path root_path) = none →
      s.fs.isDir (parent (getServerPath request.path root_path)) = true) :
    Prog.Yields ProcCmd.exec (afsStore junk root_path request) s fun r t =>
      t.faults = [] ∧
      r = { reply := { error := 0, time := Int64.ofNat s.fs.clock.tv_nsec } } ∧
      ∃ f, s.fs.Steps t.fs (Function.update s.fs.look
        (getServerPath request.path root_path) (some f)) ∧
        f.bytes = request.buf ∧ f.mtim = s.fs.clock := by
  unfold afsStore
  generalize getServerPath request.path root_path = path at *
  obtain ⟨fd, t1, f1, ho, h0, hh1, hs1, hb1, hm1, -⟩ :=
    Fs.openFile_trunc hd hp { creat := true, trunc := true } rfl rfl S_IRWXUG
  refine ProcCmd.yields_sys hf ho ?_
  have hfd : fd ≠ -1 := by omega
  simp only [hfd, if_false]
  have hl1 : t1.look path = some f1 := by rw [hs1.look, Function.update_self]
  obtain ⟨t2, f2, hw, hs2, hb2, hm2, -, hh2⟩ := Fs.write_of_empty hh1 hl1 hb1 request.buf
  have hcount : sizeT request.size.toInt = request.buf.length := by
    have hlt := request.size.toInt_lt
    rw [hsize] at hlt ⊢
    exact sizeT_natCast (by omega)
  refine ProcCmd.yields_sys hf (perform_write hcount (List.prefix_append _ _) hw) ?_
  have hl2 : t2.look path = some f2 := by rw [hs2.look, Function.update_self]
  obtain ⟨i, hst⟩ := Fs.lstat_of_look hl2
  refine ProcCmd.yields_sys (r := some (f2.stat i)) (t := t2) hf
    (by simp only [Sys.perform, hst]; rfl) ?_
  obtain ⟨t3, hc, hs3, -⟩ := Fs.close_of_holds hh2
  refine ProcCmd.yields_sys hf hc (Prog.Yields.ret ⟨hf, ?_, f2, ?_, hb2, ?_⟩)
  · simp only [Option.getD_some, File.stat_mtim, hm2 (hm1.trans hs1.clock.symm), hs1.clock]
  · have hs := (hs1.trans hs2).trans hs3
    rwa [hs2.look, hs1.look, Function.update_idem] at hs
  · rw [hm2 (hm1.trans hs1.clock.symm), hs1.clock]

/-- A store of a file that is there changes its bytes and its times only. -/
theorem afsStore_stamps {s : Proc} {g : File} (request : StoreReq) (hf : s.faults = [])
    (hsize : request.size.toInt = request.buf.length)
    (hg : s.fs.look (getServerPath request.path root_path) = some g) :
    Prog.Yields ProcCmd.exec (afsStore junk root_path request) s fun r t =>
      t.faults = [] ∧ r.ok = true ∧ s.fs.Steps t.fs (Function.update s.fs.look
        (getServerPath request.path root_path) (some (s.fs.stamped g request.buf))) := by
  unfold afsStore
  generalize getServerPath request.path root_path = path at *
  obtain ⟨fd, t1, ho, h0, hh1, hs1, -⟩ :=
    Fs.openFile_trunc_of_look hg { creat := true, trunc := true } rfl S_IRWXUG
  refine ProcCmd.yields_sys hf ho ?_
  have hfd : fd ≠ -1 := by omega
  simp only [hfd, if_false]
  have hl1 : t1.look path = some (t1.stamped g []) := by
    rw [hs1.look, Function.update_self, Fs.stamped_congr hs1.clock]
  obtain ⟨t2, hw, hs2, hh2⟩ := Fs.write_of_stamped hh1 hl1 request.buf
  have hcount : sizeT request.size.toInt = request.buf.length := by
    have hlt := request.size.toInt_lt
    rw [hsize] at hlt ⊢
    exact sizeT_natCast (by omega)
  refine ProcCmd.yields_sys hf (perform_write hcount (List.prefix_append _ _) hw) ?_
  have hl2 : t2.look path = some (t1.stamped g request.buf) := by
    rw [hs2.look, Function.update_self]
  obtain ⟨i, hst⟩ := Fs.lstat_of_look hl2
  refine ProcCmd.yields_sys (r := some ((t1.stamped g request.buf).stat i)) (t := t2) hf
    (by simp only [Sys.perform, hst]; rfl) ?_
  obtain ⟨t3, hc, hs3, -⟩ := Fs.close_of_holds hh2
  refine ProcCmd.yields_sys hf hc (Prog.Yields.ret ⟨hf, rfl, ?_⟩)
  have hs := (hs1.trans hs2).trans hs3
  rwa [hs2.look, hs1.look, Function.update_idem, Fs.stamped_congr hs1.clock] at hs

/-- A store whose calls do not fail and that reports no error has replaced the file. -/
theorem afsStore_acknowledged {s : Proc} (request : StoreReq) (hf : s.faults = [])
    (hsize : request.size.toInt = request.buf.length) :
    Prog.Yields ProcCmd.exec (afsStore junk root_path request) s fun r t =>
      r.ok = true ∧ (r.reply.error = 0 →
        ∃ f, t.fs.look (getServerPath request.path root_path) = some f ∧ f.bytes = request.buf) := by
  have hrefused : ∀ e : Int, s.fs.openFile (getServerPath request.path root_path)
      { creat := true, trunc := true } S_IRWXUG = .error e → Int32.ofInt e ≠ 0 →
      Prog.Yields ProcCmd.exec (afsStore junk root_path request) s fun r t =>
        r.ok = true ∧ (r.reply.error = 0 → ∃ f,
          t.fs.look (getServerPath request.path root_path) = some f ∧ f.bytes = request.buf) := by
    intro e he hne
    refine ProcCmd.yields_sys_error hf he ?_
    simp only [Sys.failed, if_true]
    exact Prog.Yields.call rfl (Prog.Yields.ret ⟨rfl, fun h => absurd h hne⟩)
  by_cases hd : s.fs.isDir (getServerPath request.path root_path) = true
  · refine hrefused EISDIR ?_ (by decide)
    unfold Fs.isDir at hd
    unfold Fs.openFile
    split at hd
    · next ha => simp only [ha]
    · cases hd
  · have hd' := Bool.eq_false_iff.mpr hd
    by_cases hp : s.fs.look (getServerPath request.path root_path) = none ∧
        s.fs.isDir (parent (getServerPath request.path root_path)) = false
    · refine hrefused _ ?_ (Fs.ofInt_absent_ne_zero s.fs (getServerPath request.path root_path))
      simp only [Fs.openFile, Fs.tree_eq_none hp.1 hd', hp.2, if_true, Bool.false_eq_true, if_false]
    · refine (afsStore_yields junk root_path request hf hsize hd' fun hn => ?_).mono ?_
      · by_contra hpar
        exact hp ⟨hn, Bool.eq_false_iff.mpr hpar⟩
      · rintro r t ⟨-, rfl, f, hst, hb, -⟩
        refine ⟨rfl, fun _ => ⟨f, ?_, hb⟩⟩
        rw [hst.look, Function.update_self]

/-- Fetching a file returns its bytes and the nanosecond part of its time, and changes no file. -/
theorem afsFetch_yields {s : Proc} {request_path : Path} {f : File} (hf : s.faults = [])
    (hl : s.fs.look (getServerPath request_path root_path) = some f) :
    Prog.Yields ProcCmd.exec (afsFetch junk root_path request_path) s fun r t =>
      t.faults = [] ∧ s.fs.Steps t.fs s.fs.look ∧
      r = { reply := {
        error := 0
        buf := f.bytes
        size := Int32.ofInt f.bytes.length
        time := Int64.ofNat f.mtim.tv_nsec } } := by
  unfold afsFetch
  generalize getServerPath request_path root_path = path at *
  obtain ⟨fd, t1, ho, h0, hh1, hs1, -⟩ := Fs.openFile_of_look hl {} rfl 0
  refine ProcCmd.yields_sys hf ho ?_
  have hfd : fd ≠ -1 := by omega
  simp only [hfd, if_false]
  have hl1 : t1.look path = some f := by rw [hs1.look, hl]
  obtain ⟨i, hst⟩ := Fs.fstat_of_holds hh1 hl1
  refine ProcCmd.yields_sys (r := some (f.stat i)) (t := t1) hf
    (by simp only [Sys.perform, hst]; rfl) ?_
  obtain ⟨t2, hsk, hs2, -, hh2⟩ := Fs.lseek_of_holds hh1 0
  refine ProcCmd.yields_sys hf hsk ?_
  have hl2 : t2.look path = some f := by rw [hs2.look, hl1]
  obtain ⟨t3, hrd, hs3, -, hh3⟩ := Fs.read_of_holds hh2 hl2 f.bytes.length
  refine ProcCmd.yields_sys (r := some f.bytes) (t := t3) hf ?_ ?_
  · simp only [Sys.perform, Option.getD_some, File.stat_size, Int.toNat_natCast, Option.elim_none,
      hrd, slice_zero_length]
    rfl
  have hl3 : t3.look path = some f := by rw [hs3.look, hl2]
  obtain ⟨j, hst'⟩ := Fs.fstat_of_holds hh3 hl3
  refine ProcCmd.yields_sys (r := some (f.stat j)) (t := t3) hf
    (by simp only [Sys.perform, hst']; rfl) ?_
  obtain ⟨t4, hc, hs4, -⟩ := Fs.close_of_holds hh3
  refine ProcCmd.yields_sys hf hc ?_
  have hneg : ¬ ((f.bytes.length : Int) < 0) := by omega
  simp only [Option.getD_some, File.stat_size, hneg, if_false, Int.toNat_natCast]
  refine Prog.Yields.ret ⟨hf, ?_, ?_⟩
  · have hs := ((hs1.trans hs2).trans hs3).trans hs4
    rwa [hs3.look, hs2.look, hs1.look] at hs
  · rw [fill_of_length (junk.length_heap _), File.stat_mtim]

/-- The attributes of a file: no error, and the nanosecond part in place of the time. -/
theorem afsGetattr_yields {s : Proc} {request_path : Path} {f : File} (hf : s.faults = [])
    (hl : s.fs.look (getServerPath request_path root_path) = some f) :
    Prog.Yields ProcCmd.exec (afsGetattr root_path request_path) s fun r t =>
      t = s ∧ r.ok = true ∧ r.reply.err = 0 ∧ r.reply.mtime = Int32.ofNat f.mtim.tv_nsec := by
  unfold afsGetattr
  obtain ⟨i, hst⟩ := Fs.lstat_of_look hl
  refine ProcCmd.yields_sys (r := some (f.stat i)) (t := s.fs) hf
    (by simp only [Sys.perform, hst]; rfl) ?_
  exact Prog.Yields.ret ⟨rfl, rfl, rfl, rfl⟩

/-- A change of the permission bits of a file. -/
theorem afsChmod_yields {s : Proc} {request_path : Path} {f : File} (hf : s.faults = [])
    (hl : s.fs.look (getServerPath request_path root_path) = some f) (mode : UInt32) :
    Prog.Yields ProcCmd.exec (afsChmod root_path request_path mode) s fun r t =>
      t.faults = [] ∧ r.ok = true ∧ s.fs.Steps t.fs (Function.update s.fs.look
        (getServerPath request_path root_path)
          (some { f with
            mode := f.mode / 4096 * 4096 + mode.toNat % 4096
            ctime := s.fs.clock.tv_sec })) := by
  unfold afsChmod errorReply
  generalize getServerPath request_path root_path = path at *
  obtain ⟨i, hi, rfl⟩ := Fs.look_eq_some.mp hl
  have hcall : Sys.perform none (.chmod path mode.toNat) s.fs = .ok ((0 : Int), s.fs.setNode i
      { s.fs.node i with
        mode := (s.fs.node i).mode / 4096 * 4096 + mode.toNat % 4096
        ctime := s.fs.clock.tv_sec }) := by
    simp only [Sys.perform, Fs.chattr, hi, Fs.altered]
  refine ProcCmd.yields_sys hf hcall ?_
  exact Prog.Yields.ret ⟨hf, rfl, Fs.look_setNode hi _, rfl, rfl⟩

/-- Creating an absent file makes an empty one and reports its time. -/
theorem afsCreate_yields {s : Proc} {request_path : Path} (hf : s.faults = [])
    (hl : s.fs.look (getServerPath request_path root_path) = none)
    (hd : s.fs.isDir (getServerPath request_path root_path) = false)
    (hp : s.fs.isDir (parent (getServerPath request_path root_path)) = true) :
    Prog.Yields ProcCmd.exec (afsCreate junk root_path request_path) s fun r t =>
      t.faults = [] ∧
      r = { reply := { ack := 0, time := Int64.ofNat s.fs.clock.tv_nsec } } ∧
      ∃ f, s.fs.Steps t.fs (Function.update s.fs.look
        (getServerPath request_path root_path) (some f)) ∧
        f.bytes = [] ∧ f.mtim = s.fs.clock := by
  unfold afsCreate
  generalize getServerPath request_path root_path = path at *
  obtain ⟨fd, t1, ho, h0, hh1, hs1, -⟩ :=
    Fs.openFile_creat hl hd hp { creat := true } rfl S_IRWXUG
  refine ProcCmd.yields_sys hf ho ?_
  have hfd : fd ≠ -1 := by omega
  simp only [hfd, if_false]
  have hl1 : t1.look path = some (s.fs.newFile S_IRWXUG) := by
    rw [hs1.look, Function.update_self]
  obtain ⟨i, hst⟩ := Fs.lstat_of_look hl1
  refine ProcCmd.yields_sys (r := some ((s.fs.newFile S_IRWXUG).stat i)) (t := t1) hf
    (by simp only [Sys.perform, hst]; rfl) ?_
  obtain ⟨t2, hc, hs2, -⟩ := Fs.close_of_holds hh1
  refine ProcCmd.yields_sys hf hc (Prog.Yields.ret ⟨hf, rfl, s.fs.newFile S_IRWXUG, ?_, rfl, rfl⟩)
  have hs := hs1.trans hs2
  rwa [hs1.look] at hs

/-- Unlinking leaves the name free, also when it was free before, and the status is OK. -/
theorem afsUnlink_yields {s : Proc} {request_path : Path} (hf : s.faults = [])
    (hd : s.fs.isDir (getServerPath request_path root_path) = false) :
    Prog.Yields ProcCmd.exec (afsUnlink root_path request_path) s fun r t =>
      t.faults = [] ∧ r.ok = true ∧
      s.fs.Steps t.fs (Function.update s.fs.look (getServerPath request_path root_path) none) := by
  unfold afsUnlink errorReply
  cases hl : s.fs.look (getServerPath request_path root_path) with
  | some f =>
      obtain ⟨t1, hu, hs1, -⟩ := Fs.unlink_of_look hl
      exact ProcCmd.yields_sys hf hu (Prog.Yields.ret ⟨hf, rfl, hs1⟩)
  | none =>
      refine ProcCmd.yields_sys_error hf (Fs.unlink_missing hl hd) ?_
      simp only [Sys.failed, if_true]
      refine Prog.Yields.call rfl (Prog.Yields.ret ⟨hf, rfl, ?_⟩)
      rw [← hl, Function.update_eq_self]
      exact Fs.Steps.refl _

end Server

end Afs
