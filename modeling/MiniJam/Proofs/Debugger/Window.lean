import MiniJam.Debugger

/-!
# The window of the list command

The list command goes through the addresses of a window one by one, in 64-bit arithmetic.
`window lines cp first last` are the lines that it is to show.  It shows those between the ends of the
window as 64-bit integers, and never ends if the last of these is the greatest one
(`Debugger.list_shows_window`).  So the window is the right one if its ends do not overflow.
-/

namespace MiniJam.Debugger

open List

/-- How the line of an address is shown: that of the code pointer has a mark. -/
def shown (lines : Array String) (cp : Int) (a : Nat) : String :=
  (if (a : Int) = cp then " >" else "  ") ++ lineAt lines a ++ "\n"

/-- What is shown of the addresses from `first` to `last`, in increasing order. -/
def window (lines : Array String) (cp first last : Int) : List String :=
  ((range lines.size).filter fun a : Nat => first ≤ a ∧ a ≤ last).map (shown lines cp)

variable {lines : Array String} {cp a last : Int} {s : Monitor}

theorem window_of_lt (h : last < a) : window lines cp a last = [] := by
  have hnone : (range lines.size).filter (fun b : Nat => a ≤ b ∧ b ≤ last) = [] :=
    filter_eq_nil_iff.2 fun b _ => by simp; omega
  rw [window, hnone, map_nil]

theorem window_cons {n : Nat} (hn : n < lines.size) (hlast : n ≤ last) :
    window lines cp n last = shown lines cp n :: window lines cp (n + 1) last := by
  obtain ⟨rest, hsize⟩ := Nat.exists_eq_add_of_lt hn
  have hran : range lines.size = range n ++ n :: range' (n + 1) rest := by
    rw [hsize, Nat.add_assoc, Nat.add_comm rest, range_eq_range', range_eq_range',
      ← range'_append_1, Nat.zero_add, Nat.add_comm 1, range'_succ]
  have hbel : ∀ x : Int, n ≤ x → (range n).filter (fun b : Nat => x ≤ b ∧ b ≤ last) = [] := by
    intro x hx
    refine filter_eq_nil_iff.2 fun b hb => ?_
    have := mem_range.1 hb
    simp
    omega
  have habov : (range' (n + 1) rest).filter (fun b : Nat => (n : Int) ≤ b ∧ b ≤ last) =
      (range' (n + 1) rest).filter fun b : Nat => (n : Int) + 1 ≤ b ∧ b ≤ last := by
    refine filter_congr fun b hb => decide_eq_decide.2 ?_
    have := (mem_range'_1.1 hb).1
    omega
  simp only [window, hran, filter_append, filter_cons, hbel n (Int.le_refl n),
    hbel (n + 1) (by omega), habov, decide_eq_true (And.intro (Int.le_refl n) hlast),
    decide_eq_false (show ¬ ((n : Int) + 1 ≤ n ∧ n ≤ last) by omega)]
  rfl

theorem window_succ (h : ¬ (0 ≤ a ∧ a < lines.size)) :
    window lines cp a last = window lines cp (a + 1) last := by
  refine congrArg _ (filter_congr fun b hb => decide_eq_decide.2 ?_)
  have := mem_range.1 hb
  omega

/-! ### The loop -/

theorem listFrom_eq (hlast : last < maxInt64) (ha : minInt64 ≤ a) :
    listFrom lines last s a = some (s.sayAll (window lines s.machine.cp a last)) := by
  induction hk : (last + 1 - a).toNat generalizing a s with
  | zero =>
    rw [listFrom, if_neg (by omega), window_of_lt (by omega)]
    rfl
  | succ k ih =>
    have hnext : wrap64 (a + 1) = a + 1 := wrap64_of_mem ⟨by omega, by omega⟩
    rw [listFrom, if_pos (by omega), hnext, ih (by omega) (by omega)]
    by_cases hc : 0 ≤ a ∧ a < lines.size
    · obtain ⟨n, rfl⟩ := Int.eq_ofNat_of_zero_le hc.1
      rw [window_cons (by omega) (by omega)]
      simp only [if_pos hc]
      rfl
    · rw [window_succ hc]
      simp only [if_neg hc]

/-- No 64-bit integer is beyond the greatest one. -/
theorem listFrom_maxInt64 (ha : a ≤ maxInt64) : listFrom lines maxInt64 s a = none := by
  refine Option.eq_none_iff_forall_ne_some.2 fun r hr => Int.not_lt.2 ha ?_
  refine listFrom.partial_correctness lines maxInt64 (fun _ a _ => maxInt64 < a) ?_ s a r hr
  intro loop ih s a r hr
  by_cases ha : a ≤ maxInt64
  · rw [if_pos ha] at hr
    exact absurd (ih _ _ _ hr) (Int.not_lt.2 (wrap64_mem _).2)
  · exact Int.not_le.1 ha

theorem listWindow_eq (s : Monitor) (offset size : Int) : listWindow lines s offset size =
    let cp := s.machine.cp
    let last := wrap64 (cp + offset + size)
    if last = maxInt64 then none
    else some (s.sayAll (window lines cp (wrap64 (cp + offset - size)) last)) := by
  dsimp only [listWindow]
  split
  · rename_i hl
    rw [hl, listFrom_maxInt64 (wrap64_mem _).2]
  · rename_i hl
    exact listFrom_eq (Int.lt_iff_le_and_ne.2 ⟨(wrap64_mem _).2, hl⟩) (wrap64_mem _).1

/-- The command to list `size` lines on either side of `CP + offset` shows the lines of the addresses
between the ends of this window, brought into the range of 64-bit integers, with a mark at that of the
code pointer, and does not end if the last of them is the greatest such integer.  So it shows exactly
the window if the ends are 64-bit integers and the last is not the greatest one. -/
theorem list_shows_window (s : Monitor) {a b : String} {offset size : Int} (more : List String)
    (hoffset : Text.int64? a = some offset) (hsize : Text.int64? b = some size) :
    let cp := s.machine.cp
    let lines := listingLines s.machine.program
    let first := cp + offset - size
    let last := cp + offset + size
    let listed := execute lines s (a :: b :: more) .list
    (listed = none ↔ wrap64 last = maxInt64) ∧
    (wrap64 last ≠ maxInt64 →
      listed = some (s.sayAll (window lines cp (wrap64 first) (wrap64 last)))) ∧
    (minInt64 ≤ first ∧ first ≤ maxInt64 ∧ minInt64 ≤ last ∧ last < maxInt64 →
      listed = some (s.sayAll (window lines cp first last))) := by
  intro cp lines first last listed
  have hlisted : listed = if wrap64 last = maxInt64 then none
      else some (s.sayAll (window lines cp (wrap64 first) (wrap64 last))) := by
    have hcommand : listed = listWindow lines s offset size := by
      simp only [listed, execute, listCommand, hoffset, hsize]
    rw [hcommand, listWindow_eq]
  refine ⟨?_, fun hlast => hlisted.trans (if_neg hlast), ?_⟩
  · rw [hlisted]
    split <;> simp_all
  · rintro ⟨hmin, hmax, hmin', hmax'⟩
    rw [hlisted, wrap64_of_mem ⟨hmin, hmax⟩, wrap64_of_mem ⟨hmin', Int.le_of_lt hmax'⟩,
      if_neg (Int.ne_of_lt hmax')]

def pushesFive : Object := ⟨#[.make .loadl 0 .zr 5, .make .halt 0 .zr 0], none⟩

def smallStore : Machine.Options := { Machine.Options.default with dataStore := some 8 }

def fiveLines : List String :=
  [" >  0         LOADL        5\n", "    1         HALT   (0)\n"]

theorem list_shows_window_pushesFive : ∃ m,
    Machine.load "five" pushesFive smallStore .empty .empty = .ok m ∧
      execute (listingLines m.program) (.start m) ["-1", "2"] .list =
        some ((Monitor.start m).sayAll fiveLines) := by
  obtain ⟨m, hload, hcp, hprogram⟩ : ∃ m,
      Machine.load "five" pushesFive smallStore .empty .empty = .ok m ∧ m.cp = 0 ∧
        m.program = pushesFive.program := ⟨_, rfl, rfl, rfl⟩
  have hoffset : Text.int64? "-1" = some (-1) := by decide +kernel
  have hsize : Text.int64? "2" = some 2 := by decide +kernel
  have hwindow : window (listingLines pushesFive.program) 0 (0 + -1 - 2) (0 + -1 + 2) = fiveLines := by
    decide +kernel
  have hlisted := (list_shows_window (.start m) [] hoffset hsize).2.2 (by
    simp only [Monitor.start, hcp]
    decide)
  refine ⟨m, hload, hlisted.trans ?_⟩
  simp only [Monitor.start, hcp, hprogram, hwindow]

/-- The last address of this window is less than its first one as a 64-bit integer, so no line is
shown; and with the other one the command never ends. -/
theorem list_misses_window : ∃ m,
    Machine.load "five" pushesFive smallStore .empty .empty = .ok m ∧ m.cp = 0 ∧
      (let most := "9223372036854775807"
      execute (listingLines m.program) (.start m) [most, most] .list = some (.start m) ∧
        execute (listingLines m.program) (.start m) ["0", most] .list = none) ∧
      window (listingLines m.program) m.cp (0 + maxInt64 - maxInt64) (0 + maxInt64 + maxInt64) =
        fiveLines := by
  obtain ⟨m, hload, hcp, hprogram⟩ : ∃ m,
      Machine.load "five" pushesFive smallStore .empty .empty = .ok m ∧ m.cp = 0 ∧
        m.program = pushesFive.program := ⟨_, rfl, rfl, rfl⟩
  have hmost : Text.int64? "9223372036854775807" = some maxInt64 := by decide +kernel
  have hzero : Text.int64? "0" = some 0 := by decide +kernel
  refine ⟨m, hload, hcp, ⟨?_, ?_⟩, by rw [hprogram, hcp]; decide +kernel⟩
  · simp only [execute, listCommand, hmost, listWindow_eq, Monitor.start, hcp]
    rw [if_neg (by decide), window_of_lt (by decide)]
    rfl
  · simp only [execute, listCommand, hmost, hzero, listWindow_eq, Monitor.start, hcp]
    exact if_pos (by decide)

end MiniJam.Debugger
