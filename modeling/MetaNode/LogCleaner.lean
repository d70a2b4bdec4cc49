/-
The logs of old epochs (`pkg/loggerfile/log_cleaner.go`).

The logs of epoch `N` are in a directory `epoch_N`.  `CleanOldEpochLogs` reads the numbers of
these directories, sorts them and removes all but the first `maxEpochsToKeep`; a name whose
number does not fit into 64 bits is passed over.  `SetMaxEpochsToKeep(0)` switches the
cleaning off, and no later call switches it on again.
-/
import MetaNode.AccountJson
import MetaNode.Machine
import MetaNode.Receipt

namespace MetaNode.LogCleaner

/-! ### The cleaner -/

/-- `LogCleaner` -/
structure Cleaner where
  maxEpochsToKeep : ℤ
  disableCleanup : Bool

def newLogCleaner : Cleaner := ⟨3, false⟩

def setMaxEpochsToKeep (lc : Cleaner) (n : ℤ) : Cleaner :=
  if n = 0 then { lc with disableCleanup := true }
  else { lc with maxEpochsToKeep := if n < 1 then 3 else n }

structure DirEntry where
  name : Bytes
  isDir : Bool
  deriving DecidableEq

/-- `epochEntry`; `name` is the last part of its path. -/
structure EpochEntry where
  epoch : ℕ
  name : Bytes
  deriving DecidableEq

def epochMark : Bytes := asciiBytes "epoch_"

/-- The number in a name `epoch_N`. -/
def epochNumber (name : Bytes) : Option ℕ :=
  if epochMark.isPrefixOf name then parseDecimal (name.drop epochMark.length) else none

/-- `strconv.ParseUint(s, 10, 64)` -/
def parseUint (s : Bytes) : Option ℕ := (parseDecimal s).filter (· < 2 ^ 64)

/-- The number that the cleaner finds in a name. -/
def epochOf (name : Bytes) : Option ℕ :=
  if epochMark.isPrefixOf name then parseUint (name.drop epochMark.length) else none

def collect (number : Bytes → Option ℕ) (entries : List DirEntry) : List EpochEntry :=
  entries.filterMap fun e => if e.isDir then (number e.name).map (⟨·, e.name⟩) else none

def sorted (epochs : List EpochEntry) : List EpochEntry :=
  epochs.mergeSort fun a b => decide (b.epoch ≤ a.epoch)

/-- A directory of the old system, named by a year. -/
def DirEntry.legacy (e : DirEntry) : Bool :=
  e.isDir && e.name.length == 4 && (setString e.name).isSome

variable (entries : List DirEntry)

def cleanLegacyDateDirs : List DirEntry := entries.filter (!·.legacy)

/-- The part of `CleanOldEpochLogs` that works on the entries of the directory. -/
def cleanEntries (maxEpochsToKeep : ℤ) (entries : List DirEntry) : List DirEntry :=
  let epochs := collect epochOf entries
  if epochs.length ≤ maxEpochsToKeep then entries
  else
    let old := (sorted epochs).drop maxEpochsToKeep.toNat
    cleanLegacyDateDirs (entries.filter fun e => !(old.map EpochEntry.name).contains e.name)

inductive LogDir where
  | missing
  | notDir
  | dir (entries : List DirEntry)

def cleanOldEpochLogs (lc : Cleaner) (logDir : String) : LogDir → Except String LogDir
  | .missing => .ok .missing
  | .notDir =>
    if lc.disableCleanup then .ok .notDir
    else .error ("đường dẫn log không phải là thư mục: " ++ logDir)
  | .dir entries =>
    if lc.disableCleanup then .ok (.dir entries)
    else .ok (.dir (cleanEntries lc.maxEpochsToKeep entries))

/-! ### The calls before -/

/-- The cleaner after calls of `SetMaxEpochsToKeep`. -/
def configured (args : List ℤ) : Cleaner := Machine.run setMaxEpochsToKeep newLogCleaner args

theorem disableCleanup_run (lc : Cleaner) (args : List ℤ) :
    (Machine.run setMaxEpochsToKeep lc args).disableCleanup =
      (lc.disableCleanup || args.contains 0) := by
  induction args generalizing lc with
  | nil => simp [Machine.run]
  | cons n rest ih =>
    rw [Machine.run_cons, ih, setMaxEpochsToKeep]
    split
    · next hn => simp [hn]
    · next hn => simp [Ne.symm hn]

theorem configured_concat (args : List ℤ) {n : ℤ} (hn : 1 ≤ n) :
    configured (args ++ [n]) = ⟨n, args.contains 0⟩ := by
  have hdisabled := disableCleanup_run newLogCleaner args
  rw [configured, Machine.run_concat, setMaxEpochsToKeep, if_neg (by omega), if_neg (by omega),
    hdisabled]
  rfl

/-! ### What the cleaner finds -/

abbrev epochDirs : List DirEntry → List EpochEntry := collect epochNumber

def EpochEntry.fits (e : EpochEntry) : Bool := decide (e.epoch < 2 ^ 64)

theorem epochOf_eq (name : Bytes) : epochOf name = (epochNumber name).filter (· < 2 ^ 64) := by
  rw [epochOf, epochNumber]
  split <;> rfl

def fitting : List EpochEntry :=
  (epochDirs entries).filter EpochEntry.fits

/-- The epoch directories whose numbers do not fit. -/
def huge : List EpochEntry := (epochDirs entries).filter (!·.fits)

theorem fitting_append_huge : (fitting entries ++ huge entries).Perm (epochDirs entries) :=
  List.filter_append_perm _ _

theorem collect_epochOf : collect epochOf entries = fitting entries := by
  rw [fitting, epochDirs, collect, collect, List.filter_filterMap]
  congr 1
  funext e
  rw [epochOf_eq]
  cases e.isDir <;> cases h : epochNumber e.name <;>
    simp [Option.filter, EpochEntry.fits, apply_ite (Option.map _)]

variable {entries} {e e' : EpochEntry}

theorem epochNumber_of_mem (h : e ∈ epochDirs entries) : epochNumber e.name = some e.epoch := by
  rw [epochDirs, collect, List.mem_filterMap] at h
  obtain ⟨entry, -, h⟩ := h
  split at h
  · obtain ⟨n, hn, rfl⟩ := Option.map_eq_some_iff.mp h
    exact hn
  · cases h

theorem eq_of_name_eq (h : e ∈ epochDirs entries) (h' : e' ∈ epochDirs entries)
    (hname : e.name = e'.name) : e = e' := by
  have hepoch := epochNumber_of_mem h
  rw [hname, epochNumber_of_mem h', Option.some.injEq] at hepoch
  cases e
  cases e'
  cases hepoch
  cases hname
  rfl

theorem mem_map_name {l : List EpochEntry} (hl : ∀ e ∈ l, e ∈ epochDirs entries)
    (h : e ∈ epochDirs entries) : e.name ∈ l.map EpochEntry.name ↔ e ∈ l := by
  constructor
  · intro hname
    obtain ⟨e', he', hname⟩ := List.mem_map.mp hname
    rwa [← eq_of_name_eq (hl e' he') h hname]
  · exact List.mem_map_of_mem

theorem epochDirs_filter (keep : Bytes → Bool) (entries : List DirEntry) :
    epochDirs (entries.filter fun e => keep e.name) =
      (epochDirs entries).filter fun e => keep e.name := by
  rw [epochDirs, collect, collect, List.filterMap_filter, List.filter_filterMap]
  congr 1
  funext e
  cases hkeep : keep e.name <;> cases e.isDir <;> cases h : epochNumber e.name <;>
    simp [Option.filter, hkeep]

theorem not_legacy {entry : DirEntry} {n : ℕ} (h : epochNumber entry.name = some n) :
    entry.legacy = false := by
  rw [epochNumber] at h
  split at h
  · next hmark =>
    have hlength := (List.isPrefixOf_iff_prefix.mp hmark).length_le
    have hsix : epochMark.length = 6 := rfl
    have hne : (entry.name.length == 4) = false := by
      rw [beq_eq_false_iff_ne]
      omega
    rw [DirEntry.legacy, hne, Bool.and_false, Bool.false_and]
  · cases h

theorem epochDirs_cleanLegacyDateDirs (entries : List DirEntry) :
    epochDirs (cleanLegacyDateDirs entries) = epochDirs entries := by
  rw [epochDirs, collect, collect, cleanLegacyDateDirs, List.filterMap_filter]
  congr 1
  funext e
  cases hnumber : epochNumber e.name with
  | none => simp
  | some => simp [not_legacy hnumber]

/-! ### What stays -/

theorem sorted_perm (epochs : List EpochEntry) : (sorted epochs).Perm epochs :=
  List.mergeSort_perm _ _

theorem pairwise_sorted (epochs : List EpochEntry) :
    (sorted epochs).Pairwise fun a b => b.epoch ≤ a.epoch := by
  have hpairwise : (sorted epochs).Pairwise fun a b => decide (b.epoch ≤ a.epoch) := by
    refine List.pairwise_mergeSort ?_ ?_ epochs
    · intro a b c hab hbc
      rw [decide_eq_true_eq] at hab hbc ⊢
      exact Nat.le_trans hbc hab
    · intro a b
      rw [Bool.or_eq_true, decide_eq_true_eq, decide_eq_true_eq]
      exact Nat.le_total _ _
  refine hpairwise.imp ?_
  intro a b h
  exact of_decide_eq_true h

theorem filter_notMem_drop {l : List EpochEntry} (h : l.Nodup) (n : ℕ) :
    l.filter (fun e => !(l.drop n).contains e) = l.take n := by
  have hdisjoint := List.disjoint_of_nodup_append ((List.take_append_drop n l).symm ▸ h)
  have hsplit : l.filter (fun e => !(l.drop n).contains e) =
      (l.take n ++ l.drop n).filter fun e => !(l.drop n).contains e := by
    rw [List.take_append_drop]
  rw [hsplit, List.filter_append, List.filter_eq_self.mpr, List.filter_eq_nil_iff.mpr,
    List.append_nil]
  · intro e he
    simpa using he
  · intro e he
    simpa using hdisjoint he

/-- **What stays**: the numbers that do not fit, and the highest ones of the others. -/
theorem epochDirs_clean (hnodup : ((epochDirs entries).map EpochEntry.epoch).Nodup) (n : ℕ) :
    (epochDirs (cleanEntries n entries)).Perm
      ((sorted (fitting entries)).take n ++ huge entries) := by
  have hsorted := sorted_perm (fitting entries)
  have hall : (sorted (fitting entries) ++ huge entries).Perm (epochDirs entries) :=
    (hsorted.append_right _).trans (fitting_append_huge entries)
  rw [cleanEntries, collect_epochOf]
  split
  · next hfew =>
    have htake : (sorted (fitting entries)).take n = sorted (fitting entries) := by
      apply List.take_of_length_le
      rw [hsorted.length_eq]
      omega
    rw [htake]
    exact hall.symm
  · next hmany =>
    set old := (sorted (fitting entries)).drop n with hold
    have hnodup' : (sorted (fitting entries) ++ huge entries).Nodup :=
      hall.nodup_iff.mpr hnodup.of_map
    have hmem : ∀ e ∈ old, e ∈ epochDirs entries := fun e he =>
      hall.mem_iff.mp (List.mem_append_left _ (List.mem_of_mem_drop he))
    -- names and directories tell the same
    have hkeep : ∀ e ∈ epochDirs entries,
        (!(old.map EpochEntry.name).contains e.name) = !old.contains e := by
      intro e he
      have hiff := mem_map_name hmem he
      rw [List.contains_eq_mem, List.contains_eq_mem, decide_eq_decide.mpr hiff]
    rw [epochDirs_cleanLegacyDateDirs, Int.toNat_natCast, ← hold,
      epochDirs_filter fun name => !(old.map EpochEntry.name).contains name,
      List.filter_congr hkeep]
    refine (hall.symm.filter _).trans ?_
    rw [List.filter_append, hold, filter_notMem_drop (List.nodup_append.mp hnodup').1,
      List.filter_eq_self.mpr]
    intro e he
    have hdisjoint := List.disjoint_of_nodup_append hnodup'
    have hnot : e ∉ (sorted (fitting entries)).drop n := fun hdrop =>
      hdisjoint (List.mem_of_mem_drop hdrop) he
    simpa using hnot

/-! ### What the cleaner keeps -/

/-- Of the epochs `before`, exactly the `n` highest are among those `after`, or all if there
are no more. -/
structure KeepsHighest (n : ℕ) (before after : List EpochEntry) : Prop where
  subset : ∀ e ∈ after, e ∈ before
  length : after.length = min n before.length
  highest : ∀ e ∈ after, ∀ e' ∈ before, e' ∉ after → e'.epoch < e.epoch

theorem keepsHighest_self {n : ℕ} {epochs : List EpochEntry} :
    KeepsHighest n epochs epochs ↔ epochs.length ≤ n := by
  constructor
  · intro h
    have := h.length
    omega
  · intro h
    exact ⟨fun e he => he, by omega, fun _ _ e' he' hno => absurd he' hno⟩

theorem KeepsHighest.of_perm {n : ℕ} {before before' after after' : List EpochEntry}
    (h : KeepsHighest n before after) (hbefore : before.Perm before')
    (hafter : after.Perm after') : KeepsHighest n before' after' where
  subset e he := hbefore.mem_iff.mp (h.subset e (hafter.mem_iff.mpr he))
  length := by rw [← hafter.length_eq, ← hbefore.length_eq, h.length]
  highest e he e' he' hno :=
    h.highest e (hafter.mem_iff.mpr he) e' (hbefore.mem_iff.mpr he') fun hmem =>
      hno (hafter.mem_iff.mp hmem)

theorem keepsHighest_take {epochs : List EpochEntry}
    (hsorted : epochs.Pairwise fun a b => b.epoch ≤ a.epoch)
    (hnodup : (epochs.map EpochEntry.epoch).Nodup) (n : ℕ) :
    KeepsHighest n epochs (epochs.take n) where
  subset e he := List.mem_of_mem_take he
  length := List.length_take
  highest e he e' he' hno := by
    rw [← List.take_append_drop n epochs] at hsorted hnodup he'
    rw [List.map_append] at hnodup
    have hdrop : e' ∈ epochs.drop n := (List.mem_append.mp he').resolve_left hno
    have hle : e'.epoch ≤ e.epoch := (List.pairwise_append.mp hsorted).2.2 e he e' hdrop
    have hne : e.epoch ≠ e'.epoch :=
      (List.nodup_append.mp hnodup).2.2 _ (List.mem_map_of_mem he) _ (List.mem_map_of_mem hdrop)
    omega

theorem keepsHighest_clean (hnodup : ((epochDirs entries).map EpochEntry.epoch).Nodup) (n : ℕ) :
    KeepsHighest n (epochDirs entries) (epochDirs (cleanEntries n entries)) ↔
      (∀ e ∈ epochDirs entries, e.epoch < 2 ^ 64) ∨ (epochDirs entries).length ≤ n := by
  have hsorted := sorted_perm (fitting entries)
  have hstay := epochDirs_clean hnodup n
  have hcount := (fitting_append_huge entries).length_eq
  have hlength := hstay.length_eq
  rw [List.length_append, List.length_take, hsorted.length_eq] at hlength
  rw [List.length_append] at hcount
  constructor
  · -- a number that does not fit stays beside `n` others
    intro h
    by_contra hnone
    rw [not_or] at hnone
    have hhuge : 0 < (huge entries).length := by
      rw [List.length_pos_iff]
      intro hnil
      refine hnone.1 fun e he => ?_
      have hfits := List.filter_eq_nil_iff.mp hnil e he
      simpa [EpochEntry.fits] using hfits
    have hmin := h.length
    omega
  · intro h
    by_cases hfew : (epochDirs entries).length ≤ n
    · have hclean : cleanEntries n entries = entries := by
        rw [cleanEntries, collect_epochOf, if_pos (by omega)]
      rw [hclean]
      exact keepsHighest_self.mpr hfew
    · have hfits := h.resolve_right hfew
      have hhuge : huge entries = [] := by
        rw [huge, List.filter_eq_nil_iff]
        intro e he
        simpa [EpochEntry.fits] using hfits e he
      have hall : (sorted (fitting entries)).Perm (epochDirs entries) := by
        have happend := fitting_append_huge entries
        rw [hhuge, List.append_nil] at happend
        exact hsorted.trans happend
      rw [hhuge, List.append_nil] at hstay
      have hdistinct : ((sorted (fitting entries)).map EpochEntry.epoch).Nodup :=
        (hall.map _).nodup_iff.mpr hnodup
      exact (keepsHighest_take (pairwise_sorted _) hdistinct n).of_perm hall hstay.symm

def epochsAfter (lc : Cleaner) (logDir : String) (entries : List DirEntry) : List EpochEntry :=
  match cleanOldEpochLogs lc logDir (.dir entries) with
  | .ok (.dir entries) => epochDirs entries
  | _ => []

/-- **The highest `n` epochs stay, and no others, just if there are no more, or no call was
with 0 and all the numbers fit into 64 bits.** -/
theorem cleanOldEpochLogs_iff (args : List ℤ) {n : ℕ} (hn : 1 ≤ n) (logDir : String)
    (entries : List DirEntry) (hnodup : ((epochDirs entries).map EpochEntry.epoch).Nodup) :
    KeepsHighest n (epochDirs entries)
        (epochsAfter (configured (args ++ [(n : ℤ)])) logDir entries) ↔
      (0 ∉ args ∧ ∀ e ∈ epochDirs entries, e.epoch < 2 ^ 64) ∨
        (epochDirs entries).length ≤ n := by
  have hconfigured := configured_concat args (n := n) (by omega)
  by_cases hzero : 0 ∈ args
  · have hafter : epochsAfter (configured (args ++ [(n : ℤ)])) logDir entries =
        epochDirs entries := by
      rw [epochsAfter, cleanOldEpochLogs, hconfigured, if_pos (by simpa using hzero)]
    rw [hafter, keepsHighest_self]
    constructor
    · exact .inr
    · intro h
      exact h.resolve_left fun hall => hall.1 hzero
  · have hafter : epochsAfter (configured (args ++ [(n : ℤ)])) logDir entries =
        epochDirs (cleanEntries n entries) := by
      rw [epochsAfter, cleanOldEpochLogs, hconfigured, if_neg (by simpa using hzero)]
    rw [hafter, keepsHighest_clean hnodup]
    constructor
    · rintro (hfits | hfew)
      · exact .inl ⟨hzero, hfits⟩
      · exact .inr hfew
    · rintro (hall | hfew)
      · exact .inl hall.2
      · exact .inr hfew

def twoEpochs : List DirEntry := [⟨asciiBytes "epoch_1", true⟩, ⟨asciiBytes "epoch_2", true⟩]

theorem epochDirs_twoEpochs :
    epochDirs twoEpochs = [⟨1, asciiBytes "epoch_1"⟩, ⟨2, asciiBytes "epoch_2"⟩] := by
  decide

theorem cleanOldEpochLogs_twoEpochs :
    KeepsHighest 1 (epochDirs twoEpochs)
      (epochsAfter (configured ([5] ++ [((1 : ℕ) : ℤ)])) "logs" twoEpochs) ∧
    ((epochDirs twoEpochs).map EpochEntry.epoch).Nodup := by
  have hnodup : ((epochDirs twoEpochs).map EpochEntry.epoch).Nodup := by
    rw [epochDirs_twoEpochs]
    decide
  refine ⟨(cleanOldEpochLogs_iff [5] (n := 1) (by decide) "logs" twoEpochs hnodup).mpr ?_, hnodup⟩
  rw [epochDirs_twoEpochs]
  decide

/-- After a call with 0, a call with 1 does not make the cleaner remove the older of two
epochs. -/
theorem cleanOldEpochLogs_keeps_all :
    ((epochDirs twoEpochs).map EpochEntry.epoch).Nodup ∧
    ¬ KeepsHighest 1 (epochDirs twoEpochs)
      (epochsAfter (configured ([0] ++ [((1 : ℕ) : ℤ)])) "logs" twoEpochs) := by
  have hafter : epochsAfter (configured ([0] ++ [((1 : ℕ) : ℤ)])) "logs" twoEpochs =
      epochDirs twoEpochs := rfl
  rw [hafter, keepsHighest_self, epochDirs_twoEpochs]
  decide

end MetaNode.LogCleaner
