import Afs.Core.Descriptors
import Afs.Core.Tracks
import Afs.Ops.Events
import Afs.Ops.Script

/-!
# Descriptors that sessions leave behind

`afs_CREATE` and `afs_OPEN` open the copy and hand its descriptor out, `afs_READ` opens the copy once more
for every call, `afs_WRITE` and `dump` close what they open, and `afs_RELEASE` closes the descriptor of the
session, and opens the copy again, only for a file with the modified flag. Every program is followed
through the results of its commands with the set of the descriptors held.
-/

namespace Afs

open Posix Interaction Transition

/-- The command answers in a way that costs the operation no descriptor, when the last error number is
`errno` then. -/
def Op.Thrifty : Op → (c : Cmd) → c.Res → Int → Prop
  | .create, .rpc (.create _), a, errno => a.elim (errno = 0) fun m => m.ack = 0
  | .openF, .sys (.ftruncate fd _), r, _ => fd = -1 ∨ 0 ≤ r
  | .openF, .retried (.fetch _), a, errno => a.elim (errno ≤ 0) fun _ => True
  | .read .., .sys (.openF ..), fd, _ => fd = (-1 : Int)
  | .release _, .get _, value, _ => value = modifiedFlag
  | .release _, .sys (.openF _ fl _), fd, _ => fl.trunc = false → fd = (-1 : Int)
  | _, _, _, _ => True

/-- A call that fails leaves a positive error number `e`, and a descriptor that is open can be closed. -/
def Cmd.Behaves : (c : Cmd) → c.Res → Int → Set Int → Prop
  | .sys (.openF ..), fd, e, _ => fd = (-1 : Int) → 0 < e
  | .sys (.ftruncate ..), r, e, _ => r < (0 : Int) → 0 < e
  | .sys (.close fd), r, _, held => fd ∈ held → r ≠ (-1 : Int)
  | _, _, _, _ => True

/-- What a command with this result makes of the descriptors held. -/
def Cmd.Passes : (c : Cmd) → Set Int → c.Res → Set Int → Prop
  | .sys c, H, r, H' => c.Passes H r H'
  | .errno, H, _, H' | .rpc _, H, _, H' | .retried _, H, _, H' | .get _, H, _, H' | .put .., H, _, H'
  | .table, H, _, H' | .setTable _, H, _, H' => H' = H

/-- The error number is what a program sees when it looks at it. -/
def Cmd.Shows : (c : Cmd) → c.Res → Int → Int → Prop
  | .errno, r, e, e' => r = e ∧ e' = e
  | _, _, _, _ => True

/-- What is followed: the descriptors held, the last error number, and whether all commands so far
spared descriptors. -/
structure Tally where
  held : Set Int
  errno : Int
  spared : Prop

/-- What a command that gives `r` makes of this. -/
structure Tally.Next (op : Op) (c : Cmd) (g : Tally) (r : c.Res) (g' : Tally) : Prop where
  held : c.Passes g.held r g'.held
  errno : c.Shows r g.errno g'.errno
  behaves : c.Behaves r g'.errno g.held
  spared : g'.spared ↔ g.spared ∧ op.Thrifty c r g'.errno

section Rules

variable {op : Op} {α : Type} {Q : α → Tally → Prop} {H : Set Int} {e : Int} {b : Prop}

/-- A command that neither opens nor closes, and what its result costs. -/
private theorem tracks_answer {c : Cmd} {f : c.Res → Prog clientSig α}
    (hp : ∀ H r H', c.Passes H r H' → H' = H)
    (hf : ∀ r e', (f r).Tracks (Tally.Next op) Q ⟨H, e', b ∧ op.Thrifty c r e'⟩) :
    (Prog.call (σ := clientSig) c >>= f).Tracks (Tally.Next op) Q ⟨H, e, b⟩ := by
  apply Prog.Tracks.call
  rintro r ⟨H', e', b'⟩ ⟨hheld, -, -, hspared⟩
  obtain rfl : H' = H := hp _ _ _ hheld
  obtain rfl : b' = (b ∧ op.Thrifty c r e') := propext hspared
  exact hf r e'

/-- The same when it costs nothing. -/
private theorem tracks_quiet {c : Cmd} {f : c.Res → Prog clientSig α}
    (hp : ∀ H r H', c.Passes H r H' → H' = H) (hs : ∀ r e, op.Thrifty c r e)
    (hf : ∀ r e', (f r).Tracks (Tally.Next op) Q ⟨H, e', b⟩) :
    (Prog.call (σ := clientSig) c >>= f).Tracks (Tally.Next op) Q ⟨H, e, b⟩ :=
  tracks_answer hp fun r e' => by
    rw [eq_true (hs r e'), and_true]
    exact hf r e'

private theorem tracks_sys {c : Sys} {f : c.Res → Prog clientSig α}
    (hp : ∀ H r H', c.Passes H r H' → H' = H) (hs : ∀ r e, op.Thrifty (.sys c) r e)
    (hf : ∀ r e', (f r).Tracks (Tally.Next op) Q ⟨H, e', b⟩) :
    (Client.sys c >>= f).Tracks (Tally.Next op) Q ⟨H, e, b⟩ := tracks_quiet hp hs hf

/-- An open, and what its result costs. -/
private theorem tracks_reopen {p : Path} {fl : Flags} {mode : Nat} {f : Int → Prog clientSig α}
    (hfail : ∀ e', 0 < e' → (f (-1)).Tracks (Tally.Next op) Q
      ⟨H, e', b ∧ op.Thrifty (.sys (.openF p fl mode)) (-1 : Int) e'⟩)
    (hf : ∀ (fd : Int) e', fd ≠ -1 → fd ∉ H → (f fd).Tracks (Tally.Next op) Q
      ⟨insert fd H, e', b ∧ op.Thrifty (.sys (.openF p fl mode)) fd e'⟩) :
    (Client.sys (.openF p fl mode) >>= f).Tracks (Tally.Next op) Q ⟨H, e, b⟩ := by
  apply Prog.Tracks.call
  rintro r ⟨H', e', b'⟩ ⟨hheld, -, hbehaves, hspared⟩
  obtain rfl : b' = (b ∧ op.Thrifty (.sys (.openF p fl mode)) r e') := propext hspared
  rcases hheld with ⟨rfl, hsame⟩ | ⟨hfd, hfree, hadd⟩
  · obtain rfl : H' = H := hsame
    exact hfail e' (hbehaves rfl)
  · obtain rfl : H' = insert r H := hadd
    exact hf r e' hfd hfree

/-- The same when it costs nothing. -/
private theorem tracks_openF {p : Path} {fl : Flags} {mode : Nat} {f : Int → Prog clientSig α}
    (hs : ∀ (fd : Int) e, op.Thrifty (.sys (.openF p fl mode)) fd e)
    (hfail : ∀ e', 0 < e' → (f (-1)).Tracks (Tally.Next op) Q ⟨H, e', b⟩)
    (hf : ∀ (fd : Int) e', fd ≠ -1 → fd ∉ H → (f fd).Tracks (Tally.Next op) Q ⟨insert fd H, e', b⟩) :
    (Client.sys (.openF p fl mode) >>= f).Tracks (Tally.Next op) Q ⟨H, e, b⟩ :=
  tracks_reopen (fun e' he => by rw [eq_true (hs (-1) e'), and_true]; exact hfail e' he)
    fun fd e' hfd hfree => by
      rw [eq_true (hs fd e'), and_true]
      exact hf fd e' hfd hfree

/-- A close. -/
private theorem tracks_close {fd : Int} {f : Int → Prog clientSig α}
    (hs : ∀ r e, op.Thrifty (.sys (.close fd)) r e)
    (hf : ∀ r e', (f r).Tracks (Tally.Next op) Q ⟨H \ {fd}, e', b⟩) :
    (Client.sys (.close fd) >>= f).Tracks (Tally.Next op) Q ⟨H, e, b⟩ := by
  apply Prog.Tracks.call
  rintro r ⟨H', e', b'⟩ ⟨hheld, -, hbehaves, hspared⟩
  obtain rfl : b' = b := propext (hspared.trans (and_iff_left (hs r e')))
  rcases hheld with ⟨hfail, hsame⟩ | ⟨-, -, hless⟩
  · have hno : fd ∉ H := fun hin => hbehaves hin hfail
    obtain rfl : H' = H := hsame
    have hdiff : H' \ {fd} = H' := Set.sdiff_singleton_eq_self hno
    have hgoal := hf r e'
    rwa [hdiff] at hgoal
  · obtain rfl : H' = H \ {fd} := hless
    exact hf r e'

/-- A look at the error number. -/
private theorem tracks_errno {f : Int → Prog clientSig α}
    (hf : (f e).Tracks (Tally.Next op) Q ⟨H, e, b⟩) :
    (Client.errno >>= f).Tracks (Tally.Next op) Q ⟨H, e, b⟩ := by
  apply Prog.Tracks.call
  rintro r ⟨H', e', b'⟩ ⟨hheld, ⟨hr, he⟩, -, hspared⟩
  obtain rfl : H' = H := hheld
  obtain rfl : e' = e := he
  obtain rfl : r = e' := hr
  obtain rfl : b' = b := propext (hspared.trans (and_iff_left (by cases op <;> trivial)))
  exact hf

variable {junk : Junk} {path cache_path : Path}

/-- The program holds the descriptors `K` at its end, or it has broken the condition and holds one more. -/
def Tally.Settles (K : Set Int) (g : Tally) : Prop :=
  g.held = K ∧ g.spared ∨ ∃ fd, fd ∉ K ∧ g.held = insert fd K ∧ ¬ g.spared

private theorem insert_close {fd : Int} (h : fd ∉ H) : insert fd H \ {fd} = H := by
  rw [Set.insert_sdiff_of_mem _ (Set.mem_singleton fd), Set.sdiff_singleton_eq_self h]

/-- Recording a value gives back the descriptor that it takes. -/
private theorem tracks_record (value : Int64) {f : Unit → Prog clientSig α}
    (hop : ∀ p fl mode (fd : Int) e, fl.trunc = true → op.Thrifty (.sys (.openF p fl mode)) fd e)
    (hf : ∀ e', (f ()).Tracks (Tally.Next op) Q ⟨H, e', b⟩) :
    (Client.record path cache_path value >>= f).Tracks (Tally.Next op) Q ⟨H, e, b⟩ := by
  unfold Client.record Client.dump
  simp only [Prog.bind_assoc]
  refine tracks_quiet (fun _ _ _ h => h) (fun _ _ => ?_) fun _ _ => ?_
  · cases op <;> trivial
  refine tracks_openF (fun fd e => hop _ _ _ fd e rfl) (fun e' _ => ?_) fun fd e' hfd hfree => ?_
  · rw [if_pos rfl]
    trivial
  rw [if_neg hfd]
  refine tracks_quiet (fun _ _ _ h => h) (fun _ _ => ?_) fun ht _ => ?_
  · cases op <;> trivial
  refine tracks_quiet (fun _ _ _ h => h) (fun _ _ => ?_) fun _ _ => ?_
  · cases op <;> trivial
  refine tracks_close (fun _ _ => ?_) fun _ e' => ?_
  · cases op <;> trivial
  rw [insert_close hfree]
  exact hf e'

/-- A command that neither opens nor closes, and of which the operation asks nothing. -/
def Cmd.Still (op : Op) (c : Cmd) : Prop :=
  (∀ H r H', c.Passes H r H' → H' = H) ∧ ∀ r e, op.Thrifty c r e

/-- A program of such commands. -/
private theorem tracks_still {p : Prog clientSig α} (hp : p.Uses (Cmd.Still op))
    (hQ : ∀ a e', Q a ⟨H, e', b⟩) : p.Tracks (Tally.Next op) Q ⟨H, e, b⟩ := by
  induction p generalizing e with
  | ret a => exact hQ a e
  | halt => trivial
  | op c k ih =>
      rintro r ⟨H', e', b'⟩ ⟨hheld, -, -, hspared⟩
      obtain rfl : H' = H := hp.1.1 _ _ _ hheld
      obtain rfl : b' = b := propext (hspared.trans (and_iff_left (hp.1.2 r e')))
      exact ih r (hp.2 r)

/-- The end of a program that settles for `K`. -/
abbrev Tally.Ends (K : Set Int) : α → Tally → Prop := fun _ g => g.Settles K

/-- An open whose descriptor, if there is one, is closed later. -/
private theorem tracks_scope {p : Path} {fl : Flags} {mode : Nat} {f : Int → Prog clientSig α}
    (hneg : (-1 : Int) ∉ H) (hs : ∀ (fd : Int) e, op.Thrifty (.sys (.openF p fl mode)) fd e)
    (hf : ∀ (fd : Int) K e', K \ {fd} = H → (-1 : Int) ∉ K → (f fd).Tracks (Tally.Next op) Q ⟨K, e', b⟩) :
    (Client.sys (.openF p fl mode) >>= f).Tracks (Tally.Next op) Q ⟨H, e, b⟩ := by
  refine tracks_openF hs (fun e' _ => ?_) fun fd e' hfd hfree => ?_
  · exact hf (-1) H e' (Set.sdiff_singleton_eq_self hneg) hneg
  · refine hf fd _ e' (insert_close hfree) fun hin => ?_
    rcases hin with hfd' | hin
    · exact hfd hfd'.symm
    · exact hneg hin

open Client

/-- A read keeps what its open gives it. -/
theorem afsRead_settles (k size offset : Nat) :
    (afsRead path cache_path size offset).Tracks (Tally.Next (.read k size offset)) (Tally.Ends H)
      ⟨H, e, True⟩ := by
  refine tracks_sys (fun _ _ _ h => h) (fun _ _ => trivial) fun _ _ => ?_
  refine tracks_reopen (fun e' _ => tracks_still ?_ fun _ _ => Or.inl ⟨rfl, trivial, rfl⟩)
    fun fd e' hfd hfree => tracks_still ?_ fun _ _ => Or.inr ⟨fd, hfree, rfl, fun h => hfd h.2⟩
  all_goals
    refine Prog.Uses.call ⟨fun _ _ _ h => h, fun _ _ => trivial⟩ fun got => ?_
    refine Prog.Uses.call ⟨fun _ _ _ h => h, fun _ _ => trivial⟩ fun _ => ?_
    cases got with
    | none => exact Prog.Uses.call ⟨fun _ _ _ h => h, fun _ _ => trivial⟩ fun _ => trivial
    | some d => trivial

/-- A write gives back both descriptors that it takes. -/
theorem afsWrite_settles (hneg : (-1 : Int) ∉ H) (k : Nat) (buffer : Bytes) (offset : Nat) :
    (afsWrite junk path cache_path buffer offset).Tracks (Tally.Next (.write k buffer offset))
      (Tally.Ends H) ⟨H, e, True⟩ := by
  unfold afsWrite copyToTmp
  split
  · simp only [Prog.bind_assoc, Prog.pure_eq, Prog.ret_bind]
    refine tracks_scope hneg (fun _ _ => trivial) fun fd K e1 hK hnegK => ?_
    refine tracks_sys (fun _ _ _ h => h) (fun _ _ => trivial) fun res e2 => ?_
    refine tracks_scope hnegK (fun _ _ => trivial) fun fd_main L e3 hL hnegL => ?_
    refine tracks_sys (fun _ _ _ h => h) (fun _ _ => trivial) fun got e4 => ?_
    refine tracks_sys (fun _ _ _ h => h) (fun _ _ => trivial) fun _ e5 => ?_
    refine tracks_close (fun _ _ => trivial) fun _ e6 => ?_
    rw [hL]
    refine tracks_sys (fun _ _ _ h => h) (fun _ _ => trivial) fun ret_code e7 => ?_
    refine tracks_sys (fun _ _ _ h => h) (fun _ _ => trivial) fun _ e8 => ?_
    refine tracks_close (fun _ _ => trivial) fun _ e9 => ?_
    rw [hK]
    refine tracks_sys (fun _ _ _ h => h) (fun _ _ => trivial) fun _ e10 => ?_
    refine tracks_sys (fun _ _ _ h => h) (fun _ _ => trivial) fun _ e11 => ?_
    refine tracks_record _ (fun _ _ _ _ _ _ => trivial) fun e12 => ?_
    split
    · exact tracks_errno (Or.inl ⟨rfl, trivial⟩)
    · exact Or.inl ⟨rfl, trivial⟩
  · exact Or.inl ⟨rfl, trivial⟩

/-- The program returns 0 with a new descriptor, or an error. -/
def Tally.Hands (H : Set Int) (r : Int × Int) (g : Tally) : Prop :=
  (r.1 = 0 → r.2 ∉ H ∧ g.Settles (insert r.2 H)) ∧ (r.1 ≠ 0 → g.Settles H)

private theorem hands_out {rc fd : Int} {g : Tally} (hrc : rc = 0) (hfree : fd ∉ H)
    (hg : g.Settles (insert fd H)) : g.Hands H (rc, fd) :=
  ⟨fun _ => ⟨hfree, hg⟩, fun h => absurd hrc h⟩

private theorem hands_error {rc fd : Int} {g : Tally} (hrc : rc ≠ 0) (hg : g.Settles H) :
    g.Hands H (rc, fd) := ⟨fun h => absurd h hrc, fun _ => hg⟩

/-- A creation hands out the descriptor that it takes, unless it returns an error. -/
theorem afsCreate_settles (fh : Int) :
    (afsCreate path cache_path fh).Tracks (Tally.Next .create) (fun r g => g.Hands H r)
      ⟨H, e, True⟩ := by
  refine tracks_openF (fun _ _ => trivial) (fun e1 he1 => ?_) fun fd e1 hfd hfree => ?_
  · rw [if_pos rfl]
    exact tracks_errno (hands_error (show -e1 ≠ 0 by omega) (Or.inl ⟨rfl, trivial⟩))
  · rw [if_neg hfd]
    refine tracks_answer (fun _ _ _ h => h) fun status e2 => ?_
    cases status with
    | some reply =>
        refine tracks_record _ (fun _ _ _ _ _ _ => trivial) fun e3 => ?_
        by_cases hack : reply.ack.toInt = 0
        · exact hands_out hack hfree (Or.inl ⟨rfl, trivial, Int32.toInt_inj.mp hack⟩)
        · refine hands_error hack (Or.inr ⟨fd, hfree, rfl, fun h => hack ?_⟩)
          rw [show reply.ack = 0 from h.2]
          rfl
    | none =>
        refine tracks_errno ?_
        by_cases hzero : -e2 = 0
        · exact hands_out hzero hfree (Or.inl ⟨rfl, trivial, show e2 = 0 by omega⟩)
        · refine hands_error hzero (Or.inr ⟨fd, hfree, rfl, fun h => hzero ?_⟩)
          have he : e2 = 0 := h.2
          omega

/-- An open of the copy takes one descriptor or, when both tries fail, none. -/
private theorem openCopy_tracks :
    (openCopy junk path cache_path).Tracks (Tally.Next .openF)
      (fun r g => g.spared ∧ (r.1 = -1 ∧ r.2 = true ∧ g.held = H ∨
        r.1 ≠ -1 ∧ r.1 ∉ H ∧ g.held = insert r.1 H)) ⟨H, e, True⟩ := by
  refine tracks_openF (fun _ _ => trivial) (fun e1 _ => ?_) fun fd e1 hfd hfree => ?_
  · rw [if_pos rfl]
    refine tracks_openF (fun _ _ => trivial) (fun e2 _ => ?_) fun fd e2 hfd hfree => ?_
    · exact ⟨trivial, Or.inl ⟨rfl, rfl, rfl⟩⟩
    · exact ⟨trivial, Or.inr ⟨hfd, hfree, rfl⟩⟩
  · rw [if_neg hfd]
    have hgetattr : (afsGetattr path junk.stats).Uses (Cmd.Still .openF) := by
      refine Prog.Uses.call ⟨fun _ _ _ h => h, fun _ _ => trivial⟩ fun status => ?_
      cases status with
      | some reply =>
          dsimp only
          split <;> trivial
      | none => exact Prog.Uses.call ⟨fun _ _ _ h => h, fun _ _ => trivial⟩ fun _ => trivial
    refine Prog.Tracks.bind (P := fun _ g => g.spared ∧ g.held = insert fd H)
      (tracks_still hgetattr fun _ _ => ⟨trivial, rfl⟩) ?_
    rintro x ⟨K, e2, b⟩ ⟨hb, hK⟩
    refine tracks_quiet (fun _ _ _ h => h) (fun _ _ => trivial) fun _ e3 => ?_
    exact ⟨hb, Or.inr ⟨hfd, hfree, hK⟩⟩

/-- A fetch that gives up without an answer costs a descriptor. -/
private theorem afsFetch_tracks (K : Set Int) :
    (afsFetch path cache_path).Tracks (Tally.Next .openF)
      (fun r g => g.held = K ∧ (g.spared ↔ ¬ r.1 < 0)) ⟨K, e, True⟩ := by
  refine tracks_answer (fun _ _ _ h => h) fun status e1 => ?_
  cases status with
  | some reply =>
      refine tracks_record _ (fun _ _ _ _ _ _ => trivial) fun e2 => ?_
      exact ⟨rfl, iff_of_true ⟨trivial, trivial⟩ (Int.lt_irrefl 0)⟩
  | none =>
      refine tracks_errno ⟨rfl, ?_⟩
      change True ∧ e1 ≤ 0 ↔ ¬ -e1 < 0
      rw [true_and]
      omega

/-- The fetching part of an open returns early at the cost of its descriptor. -/
private theorem fetchNewCopy_tracks {fd : Int} (hfd : fd ≠ -1) (K : Set Int) :
    (fetchNewCopy junk path cache_path fd).Tracks (Tally.Next .openF)
      (fun early g => g.held = K ∧ early ≠ some 0 ∧ (g.spared ↔ early = none)) ⟨K, e, True⟩ := by
  apply Prog.Tracks.call
  rintro r ⟨K', e1, b⟩ ⟨hheld, -, hbehaves, hspared⟩
  obtain rfl : K' = K := hheld.2
  obtain rfl : b = (True ∧ (fd = -1 ∨ 0 ≤ (r : Int))) := propext hspared
  by_cases hr : (r : Int) < 0
  · rw [if_pos hr]
    have hpos : 0 < e1 := hbehaves hr
    refine tracks_errno ⟨rfl, fun h => ?_, iff_of_false ?_ (Option.some_ne_none _)⟩
    · have he : -e1 = 0 := Option.some.inj h
      omega
    · rintro ⟨-, hminus | hge⟩
      · exact hfd hminus
      · exact absurd hr (Int.not_lt.mpr hge)
  · rw [if_neg hr]
    have hb : (True ∧ (fd = -1 ∨ 0 ≤ (r : Int))) = True := eq_true ⟨trivial, Or.inr (Int.not_lt.mp hr)⟩
    rw [hb]
    refine Prog.Tracks.bind (afsFetch_tracks K') ?_
    rintro ⟨rc, out⟩ ⟨L, e2, b⟩ ⟨rfl, hb⟩
    dsimp only
    by_cases hrc : rc < 0
    · rw [if_pos hrc]
      refine ⟨rfl, by decide, iff_of_false (fun h => hb.mp h hrc) (Option.some_ne_none _)⟩
    · rw [if_neg hrc]
      refine tracks_sys (fun _ _ _ h => h) (fun _ _ => trivial) fun _ e3 => ?_
      refine tracks_sys (fun _ _ _ h => h) (fun _ _ => trivial) fun _ e4 => ?_
      exact ⟨rfl, (Option.some_ne_none 0).symm, iff_of_true (hb.mpr hrc) rfl⟩

/-- Without a descriptor the fetching part does nothing. -/
private theorem fetchNewCopy_tracks_none (K : Set Int) :
    (fetchNewCopy junk path cache_path (-1)).Tracks (Tally.Next .openF)
      (fun early g => g.held = K ∧ g.spared ∧ ∃ rc, early = some rc ∧ rc ≠ 0) ⟨K, e, True⟩ := by
  apply Prog.Tracks.call
  rintro r ⟨K', e1, b⟩ ⟨hheld, -, hbehaves, hspared⟩
  obtain rfl : K' = K := hheld.2
  obtain rfl : r = (-1 : Int) := hheld.1 rfl
  have hpos : 0 < e1 := hbehaves (by decide)
  rw [if_pos (show (-1 : Int) < 0 by decide)]
  exact tracks_errno ⟨rfl, hspared.mpr ⟨trivial, Or.inl rfl⟩, -e1, rfl, by omega⟩

/-- An open hands out the descriptor that it takes, unless it returns an error. -/
theorem afsOpen_settles (fh : Int) :
    (afsOpen junk path cache_path fh).Tracks (Tally.Next .openF) (fun r g => g.Hands H r)
      ⟨H, e, True⟩ := by
  refine Prog.Tracks.bind openCopy_tracks ?_
  rintro ⟨fd, fetch⟩ ⟨K, e1, b⟩ ⟨hb, hopened⟩
  obtain rfl : b = True := eq_true hb
  rcases hopened with ⟨hfd, hfetch, hK⟩ | ⟨hfd, hfree, hK⟩
  · obtain rfl : fd = -1 := hfd
    obtain rfl : fetch = true := hfetch
    obtain rfl : K = H := hK
    refine Prog.Tracks.bind (fetchNewCopy_tracks_none K) ?_
    rintro early ⟨L, e2, b⟩ ⟨hL, hspared, rc, rfl, hrc⟩
    exact hands_error hrc (Or.inl ⟨hL, hspared⟩)
  · obtain rfl : K = insert fd H := hK
    cases fetch with
    | true =>
        refine Prog.Tracks.bind (fetchNewCopy_tracks hfd _) ?_
        rintro early ⟨L, e2, b⟩ ⟨hL, hne, hspared⟩
        obtain rfl : L = insert fd H := hL
        cases early with
        | some rc =>
            have hrc : rc ≠ 0 := fun h => hne (congrArg some h)
            exact hands_error hrc
              (Or.inr ⟨fd, hfree, rfl, fun hb => Option.some_ne_none rc (hspared.mp hb)⟩)
        | none =>
            refine tracks_sys (fun _ _ _ h => h) (fun _ _ => trivial) fun _ e3 => ?_
            exact hands_out rfl hfree (Or.inl ⟨rfl, hspared.mpr rfl⟩)
    | false =>
        refine tracks_sys (fun _ _ _ h => h) (fun _ _ => trivial) fun _ e3 => ?_
        exact hands_out rfl hfree (Or.inl ⟨rfl, trivial⟩)

/-- Storing holds no descriptor in the end. -/
private theorem afsStore_tracks (k : Nat) (buf : Bytes) (size : Int32) :
    (afsStore path cache_path buf size).Tracks (Tally.Next (.release k))
      (fun _ g => g.held = H ∧ (g.spared ↔ b)) ⟨H, e, b⟩ := by
  unfold afsStore
  split
  · trivial
  · refine tracks_quiet (fun _ _ _ h => h) (fun _ _ => trivial) fun status e1 => ?_
    cases status with
    | some reply =>
        refine tracks_record _ (fun _ _ _ _ _ htrunc hno => ?_) fun e2 => ⟨rfl, Iff.rfl⟩
        rw [htrunc] at hno
        cases hno
    | none => exact ⟨rfl, Iff.rfl⟩

/-- A release gives its descriptor back only for a file with the flag, and takes another one if the
copy opens again. -/
theorem afsRelease_settles (k : Nat) {fh : Int} (hfh : fh ∈ H) :
    (afsRelease junk path cache_path fh).Tracks (Tally.Next (.release k)) (Tally.Ends (H \ {fh}))
      ⟨H, e, True⟩ := by
  refine tracks_sys (fun _ _ _ h => h) (fun _ _ => trivial) fun res e1 => ?_
  refine tracks_answer (fun _ _ _ h => h) fun modified e2 => ?_
  by_cases hflag : modified = modifiedFlag
  · rw [if_pos hflag]
    refine tracks_close (fun _ _ => trivial) fun rc e3 => ?_
    refine tracks_reopen (fun e4 _ => ?_) fun fd e4 hfd hfree => ?_
    · refine tracks_sys (fun _ _ _ h => h) (fun _ _ => trivial) fun got e5 => ?_
      refine Prog.Tracks.bind (afsStore_tracks k _ _) ?_
      rintro _ ⟨L, e6, b⟩ ⟨hL, hb⟩
      exact Or.inl ⟨hL, hb.mpr ⟨⟨trivial, hflag⟩, fun _ => rfl⟩⟩
    · refine tracks_sys (fun _ _ _ h => h) (fun _ _ => trivial) fun got e5 => ?_
      refine Prog.Tracks.bind (afsStore_tracks k _ _) ?_
      rintro _ ⟨L, e6, b⟩ ⟨hL, hb⟩
      exact Or.inr ⟨fd, hfree, hL, fun h => hfd ((hb.mp h).2 rfl)⟩
  · rw [if_neg hflag]
    refine Or.inr ⟨fh, fun h => h.2 rfl, ?_, fun h => hflag h.2⟩
    exact (Set.insert_sdiff_self_of_mem hfh).symm

/-- Syncing neither takes nor gives back a descriptor. -/
theorem afsFsync_settles (k : Nat) (fh : Int) :
    (afsFsync fh).Tracks (Tally.Next (.fsync k)) (Tally.Ends H) ⟨H, e, True⟩ := by
  refine tracks_sys (fun _ _ _ h => h) (fun _ _ => trivial) fun res e1 => ?_
  split
  · exact tracks_errno (Or.inl ⟨rfl, trivial⟩)
  · exact Or.inl ⟨rfl, trivial⟩

/-- The operations of a session, and those that begin one. -/
def Op.InSessions : Op → Prop
  | .create | .openF | .read .. | .write .. | .release _ | .fsync _ => True
  | .getattr | .truncate _ | .chown .. | .chmod _ | .utimens .. | .unlink | .mkdir _ | .rmdir | .readdir =>
    False

instance : (op : Op) → Decidable op.InSessions
  | .create | .openF | .read .. | .write .. | .release _ | .fsync _ => .isTrue trivial
  | .getattr | .truncate _ | .chown .. | .chmod _ | .utimens .. | .unlink | .mkdir _ | .rmdir | .readdir =>
    .isFalse id

/-- What an operation on the session with the handle `fh` leaves when it returns `r`: a new session has the
descriptor that it handed out, and an ended one none. -/
def Op.Balances (fh : Int) (H : Set Int) (r : Result) (g : Tally) : Op → Prop
  | .create | .openF => g.Hands H (r.ret, r.fh)
  | .release _ => g.Settles (H \ {fh})
  | _ => g.Settles H

/-- Every operation of a session settles, at the cost of a descriptor where its commands do not all answer
thriftily. -/
theorem Op.prog_balances {fh : Int} (hneg : (-1 : Int) ∉ H) (hop : op.InSessions)
    (hfh : ∀ k, op = .release k → fh ∈ H) :
    (op.prog junk path cache_path fh).Tracks (Tally.Next op) (fun r g => op.Balances fh H r g)
      ⟨H, e, True⟩ := by
  cases op with
  | create => exact (afsCreate_settles fh).bind fun _ _ h => h
  | openF => exact (afsOpen_settles fh).bind fun _ _ h => h
  | read k size offset => exact (afsRead_settles k size offset).bind fun _ _ h => h
  | write k buffer offset => exact (afsWrite_settles hneg k buffer offset).bind fun _ _ h => h
  | release k => exact (afsRelease_settles k (hfh k rfl)).bind fun _ _ h => h
  | fsync k => exact (afsFsync_settles k fh).bind fun _ _ h => h
  | getattr | truncate size | chown uid gid | chmod mode | utimens a b | unlink | mkdir mode | rmdir
  | readdir => exact hop.elim

end Rules

section Runs

variable (env : Env) (op : Op)

/-- The command behaves in this state. -/
def Cmd.Sane (c : Cmd) (s : St) : Prop :=
  c.Behaves (env.exec c s).1 (env.exec c s).2.client.proc.errno s.disk.held

instance : (c : Cmd) → (s : St) → Decidable (c.Sane env s)
  | .sys (.openF ..), _ => inferInstanceAs (Decidable (_ = (-1 : Int) → 0 < _))
  | .sys (.ftruncate ..), _ => inferInstanceAs (Decidable (_ < (0 : Int) → 0 < _))
  | .sys (.close fd), s =>
    haveI : Decidable (fd ∈ s.disk.held) := inferInstanceAs (Decidable (s.disk.getFd fd ≠ none))
    inferInstanceAs (Decidable (fd ∈ s.disk.held → _ ≠ (-1 : Int)))
  | .sys (.lstat _), _ | .sys (.fstat _), _ | .sys (.read ..), _ | .sys (.pread ..), _
  | .sys (.write ..), _ | .sys (.pwrite ..), _ | .sys (.lseek ..), _ | .sys (.truncate ..), _
  | .sys (.fsync _), _ | .sys (.unlink _), _ | .sys (.remove _), _ | .sys (.rename ..), _
  | .sys (.mkdir ..), _ | .sys (.rmdir _), _ | .sys (.chmod ..), _ | .sys (.lchown ..), _
  | .sys (.utimens ..), _ | .sys (.readdir _), _ | .errno, _ | .rpc _, _ | .retried _, _ | .get _, _
  | .put .., _ | .table, _ | .setTable _, _ => .isTrue trivial

/-- The command answers thriftily in this state. -/
def Cmd.AnswersThriftily (c : Cmd) (s : St) : Prop :=
  op.Thrifty c (env.exec c s).1 (env.exec c s).2.client.proc.errno

variable {env op} {α : Type} {p : Prog clientSig α} {Q : α → Tally → Prop} {s t : St} {a : α}

/-- What is followed of a state. -/
private def St.tally (x : St × Prop) : Tally := ⟨x.1.disk.held, x.1.client.proc.errno, x.2⟩

private theorem tally_next {c : Cmd} {x : St × Prop} (h : c.Sane env x.1) :
    Tally.Next op c (St.tally x) (Prog.noting env.exec (Cmd.AnswersThriftily env op) c x).1
      (St.tally (Prog.noting env.exec (Cmd.AnswersThriftily env op) c x).2) := by
  refine ⟨?_, ?_, h, Iff.rfl⟩
  · cases c with
    | sys c => exact Sys.exec_held c x.1.client.proc
    | rpc r => exact congrArg Fs.held (Env.attempt_client env r x.1).1.fs
    | retried r => exact congrArg Fs.held (Env.retryLoop_client env r _ x.1).fs
    | errno | get filename | put key value | table | setTable ht => rfl
  · cases c with
    | errno => exact ⟨rfl, rfl⟩
    | _ => trivial

/-- What a program is followed to is where its run ends. -/
theorem tracks_run (hp : p.Tracks (Tally.Next op) Q ⟨s.disk.held, s.client.proc.errno, True⟩)
    (hm : p.Meets env.exec (Cmd.Sane env) s) (hrun : p.run env.exec s = (some a, t)) :
    ∃ e, Q a ⟨t.disk.held, e, p.Meets env.exec (Cmd.AnswersThriftily env op) s⟩ := by
  obtain ⟨hres, hstate, hnote⟩ := Prog.run_noting (m := env.exec) (C := Cmd.AnswersThriftily env op)
    (s := s) (b := True) p
  rw [hrun] at hres hstate
  generalize hout : p.run (Prog.noting env.exec (Cmd.AnswersThriftily env op)) (s, True) = out at *
  obtain ⟨x, u, b⟩ := out
  obtain rfl : x = some a := hres
  obtain rfl : u = t := hstate
  obtain rfl : b = p.Meets env.exec (Cmd.AnswersThriftily env op) s :=
    propext (hnote.trans (iff_of_eq (true_and _)))
  exact ⟨_, Prog.Tracks.of_run (f := St.tally) hp hm.noting (fun c x hx => tally_next hx) hout⟩

end Runs

end Afs
