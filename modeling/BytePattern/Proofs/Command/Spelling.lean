import Mathlib.Data.List.Perm.Basic
import BytePattern.Command.Settings
import BytePattern.Error
import BytePattern.Proofs.Text.Decimal

/-!
# Settings spelled as words

Every setting has its words, a flag and where it takes one a number in decimal, and each is read as that
setting alone (`Setting.Spells.read_append`). Before the two minus signs the settings stand in any order,
with positional words that are no flags anywhere between them (`Front`); what they set does not depend on
the order, since no two of them set the same thing (`foldl_chosen`).
-/
namespace BytePattern

theorem Decimal.head?_ofNat_ne {b : UInt8} (hb : Byte.isDigit b = false) (n : Nat) :
    (ofNat n).head? ≠ some b := by
  intro h
  have hdigit := isDigit_of_mem_ofNat b (List.mem_of_mem_head? h)
  rw [hb] at hdigit
  cases hdigit

namespace Command

theorem natural?_ofNat (n : Nat) : natural? (Decimal.ofNat n) = some n := by
  have hplus := Decimal.head?_ofNat_ne (b := Byte.plus) (by decide) n
  have hread := Decimal.toNat?_ofNat n
  cases h : Decimal.ofNat n with
  | nil => exact absurd h (Decimal.ofNat_ne_nil n)
  | cons b digits =>
    rw [h] at hplus hread
    rw [natural?, if_neg fun hb => hplus (congrArg some hb), hread]

theorem word64?_ofNat (n : UInt64) : word64? (Decimal.ofNat n.toNat) = some n := by
  rw [word64?, natural?_ofNat, Option.bind_some, if_pos n.toNat_lt, UInt64.ofNat_toNat]

theorem int64?_ofInt (n : Int64) : int64? (Decimal.ofInt n.toInt) = some n := by
  have hrange := And.intro n.minValue_le_toInt n.toInt_le
  by_cases h : n.toInt < 0
  · have habs : -Int.ofNat n.toInt.natAbs = n.toInt := by
      rw [Int.ofNat_eq_natCast, Int.ofNat_natAbs_of_nonpos (Int.le_of_lt h), Int.neg_neg]
    simp only [int64?, Decimal.ofInt, if_pos h, List.head?_cons, if_true, List.tail_cons,
      Decimal.toNat?_ofNat, Option.map_some, Option.bind_some, habs, if_pos hrange, Int64.ofInt_toInt]
  · have habs : Int.ofNat n.toInt.toNat = n.toInt := Int.toNat_of_nonneg (Int.not_lt.1 h)
    have hminus := Decimal.head?_ofNat_ne (b := Byte.minus) (by decide) n.toInt.toNat
    simp only [int64?, Decimal.ofInt, if_neg h, if_neg hminus, natural?_ofNat, Option.map_some,
      Option.bind_some, habs, if_pos hrange, Int64.ofInt_toInt]

theorem ofWord?_spellings : ∀ e ∈ Flag.spellings, isFlag e.1 = true ∧ Flag.ofWord? e.1 = some e.2 := by
  decide +kernel

inductive Setting
  | init (n : Int64)
  | maxCount (n : Int64)
  | budget (n : UInt64)
  | plain | json | version | help
  deriving DecidableEq

namespace Setting

def apply (st : Settings) : Setting → Settings
  | .init n => { st with init := some n }
  | .maxCount n => { st with maxCount := some n }
  | .budget n => { st with budget := some n }
  | .plain => { st with plain := true }
  | .json => { st with json := true }
  | .version => { st with showVersion := true }
  | .help => { st with showHelp := true }

inductive Spells : Setting → List Bytes → Prop
  | init (n : Int64) : Spells (.init n) [utf8 "--init", Decimal.ofInt n.toInt]
  | maxCount (n : Int64) : Spells (.maxCount n) [utf8 "-n", Decimal.ofInt n.toInt]
  | budget (n : UInt64) : Spells (.budget n) [utf8 "--budget", Decimal.ofNat n.toNat]
  | plain : Spells .plain [utf8 "--plain"]
  | json : Spells .json [utf8 "--json"]
  | version : Spells .version [utf8 "-v"]
  | help : Spells .help [utf8 "-h"]
  | helpInFull : Spells .help [utf8 "--help"]

theorem Spells.read_append {s : Setting} {words : List Bytes} (h : s.Spells words) (st : Settings)
    (more : List Bytes) : st.read (words ++ more) = (s.apply st).read more := by
  have hflags := ofWord?_spellings
  simp only [Flag.spellings, List.forall_mem_cons] at hflags
  obtain ⟨hinit, hcount, hbudget, hplain, hjson, hversion, hhelp, hfull, _⟩ := hflags
  cases h with
  | init n =>
    simp only [List.cons_append, List.nil_append, Settings.read, hinit, if_true, numberAfter,
      int64?_ofInt, ok_bind, List.tail_cons, apply]
  | maxCount n =>
    simp only [List.cons_append, List.nil_append, Settings.read, hcount, if_true, numberAfter,
      int64?_ofInt, ok_bind, List.tail_cons, apply]
  | budget n =>
    simp only [List.cons_append, List.nil_append, Settings.read, hbudget, if_true, numberAfter,
      word64?_ofNat, ok_bind, List.tail_cons, apply]
  | plain => simp only [List.cons_append, List.nil_append, Settings.read, hplain, if_true, apply]
  | json => simp only [List.cons_append, List.nil_append, Settings.read, hjson, if_true, apply]
  | version => simp only [List.cons_append, List.nil_append, Settings.read, hversion, if_true, apply]
  | help => simp only [List.cons_append, List.nil_append, Settings.read, hhelp, if_true, apply]
  | helpInFull => simp only [List.cons_append, List.nil_append, Settings.read, hfull, if_true, apply]

def flag : Setting → Flag
  | .init _ => .init
  | .maxCount _ => .maxCount
  | .budget _ => .budget
  | .plain => .plain
  | .json => .json
  | .version => .version
  | .help => .help

theorem apply_comm {s s' : Setting} (h : s.flag ≠ s'.flag) (st : Settings) :
    s.apply (s'.apply st) = s'.apply (s.apply st) := by
  cases s <;> cases s' <;> first | rfl | exact absurd rfl h

theorem foldl_apply_words (settings : List Setting) (st : Settings) (words : List Bytes) :
    settings.foldl apply { st with words } = { settings.foldl apply st with words } := by
  induction settings generalizing st with
  | nil => rfl
  | cons s settings ih =>
    rw [List.foldl_cons, List.foldl_cons, ← ih]
    cases s <;> rfl

end Setting

namespace Settings

def setting? (st : Settings) : Flag → Option Setting
  | .init => st.init.map .init
  | .maxCount => st.maxCount.map .maxCount
  | .budget => st.budget.map .budget
  | .plain => if st.plain then some .plain else none
  | .json => if st.json then some .json else none
  | .version => if st.showVersion then some .version else none
  | .help => if st.showHelp then some .help else none
  | .stop => none

def chosen (st : Settings) : List Setting :=
  [Flag.init, .maxCount, .budget, .plain, .json, .version, .help].filterMap st.setting?

theorem flag_of_setting? {st : Settings} {f : Flag} {s : Setting} (h : st.setting? f = some s) :
    s.flag = f := by
  cases f with
  | init | maxCount | budget =>
    obtain ⟨n, _, rfl⟩ := Option.map_eq_some_iff.1 h
    rfl
  | plain | json | version | help =>
    obtain ⟨_, hs⟩ := Option.ite_none_right_eq_some.1 h
    cases hs
    rfl
  | stop => cases h

theorem eq_of_mem_chosen {st : Settings} {s s' : Setting} (hs : s ∈ st.chosen) (hs' : s' ∈ st.chosen)
    (hflag : s.flag = s'.flag) : s = s' := by
  obtain ⟨f, _, hf⟩ := List.mem_filterMap.1 hs
  obtain ⟨f', _, hf'⟩ := List.mem_filterMap.1 hs'
  obtain rfl : f = f' := by rw [← flag_of_setting? hf, ← flag_of_setting? hf', hflag]
  exact Option.some.inj (hf.symm.trans hf')

theorem foldl_chosen (st : Settings) :
    st.chosen.foldl Setting.apply {} = { st with words := [] } := by
  obtain ⟨init, maxCount, budget, plain, json, showVersion, showHelp, words⟩ := st
  cases init <;> cases maxCount <;> cases budget <;> cases plain <;> cases json <;>
    cases showVersion <;> cases showHelp <;> rfl

theorem foldl_of_perm {st : Settings} {settings : List Setting} (h : settings.Perm st.chosen) :
    settings.foldl Setting.apply {} = { st with words := [] } := by
  rw [← foldl_chosen]
  refine h.foldl_eq' (fun s hs s' hs' st' => ?_) ({} : Settings)
  by_cases hflag : s.flag = s'.flag
  · rw [eq_of_mem_chosen (h.mem_iff.1 hs) (h.mem_iff.1 hs') hflag]
  · exact Setting.apply_comm (Ne.symm hflag) st'

end Settings

/-- Settings in their order and positional words in theirs, with the words that both make together. -/
inductive Front : List Setting → List Bytes → List Bytes → Prop
  | nil : Front [] [] []
  | setting {s : Setting} {words : List Bytes} {settings : List Setting} {front args : List Bytes} :
      s.Spells words → Front settings front args → Front (s :: settings) front (words ++ args)
  | word {w : Bytes} {settings : List Setting} {front args : List Bytes} :
      w = [Byte.minus] ∨ w.head? ≠ some Byte.minus → Front settings front args →
      Front settings (w :: front) (w :: args)

theorem isFlag_eq_false {w : Bytes} (h : w = [Byte.minus] ∨ w.head? ≠ some Byte.minus) :
    isFlag w = false := by
  rcases h with rfl | h
  · rfl
  · simp [isFlag, h]

theorem Front.read_append {settings : List Setting} {front args : List Bytes}
    (h : Front settings front args) (st : Settings) (more : List Bytes) :
    st.read (args ++ more) =
      { settings.foldl Setting.apply st with words := st.words ++ front }.read more := by
  induction h generalizing st with
  | nil => rw [List.foldl_nil, List.nil_append, List.append_nil]
  | @setting s _ _ _ _ hs _ ih =>
    have hwords : (s.apply st).words = st.words := by cases s <;> rfl
    rw [List.append_assoc, hs.read_append, ih, hwords, List.foldl_cons]
  | @word w _ _ _ hw _ ih =>
    rw [List.cons_append, Settings.read, if_neg (by simp [isFlag_eq_false hw]), ih,
      Setting.foldl_apply_words, List.append_assoc, List.singleton_append]

theorem Setting.exists_spells (s : Setting) : ∃ words, s.Spells words := by
  cases s <;> exact ⟨_, by constructor⟩

theorem Front.exists_nil (settings : List Setting) : ∃ args, Front settings [] args := by
  induction settings with
  | nil => exact ⟨[], .nil⟩
  | cons s settings ih =>
    obtain ⟨args, hargs⟩ := ih
    obtain ⟨words, hwords⟩ := s.exists_spells
    exact ⟨words ++ args, .setting hwords hargs⟩

theorem Settings.read_stop (st : Settings) (rest : List Bytes) :
    st.read (utf8 "--" :: rest) = .ok { st with words := st.words ++ rest } := by
  obtain ⟨hflag, hword⟩ := ofWord?_spellings (utf8 "--", .stop) (by decide +kernel)
  rw [Settings.read, if_pos hflag, hword]

/-- All settings can be spelled, and no order of the flags and no way of mixing them with positional words
is read as anything else. After the two minus signs the words may be any. -/
theorem read_spelled (st : Settings) :
    (∃ args, Front st.chosen [] args) ∧
      ∀ settings front rest args, settings.Perm st.chosen → Front settings front args →
        st.words = front ++ rest → Settings.read {} (args ++ utf8 "--" :: rest) = .ok st := by
  refine ⟨Front.exists_nil st.chosen, fun settings front rest args hperm hfront hwords => ?_⟩
  rw [hfront.read_append, Settings.foldl_of_perm hperm, Settings.read_stop]
  simp [← hwords]

theorem read_spelled_find :
    Settings.read {} (["find", "--budget", "10", "-", "--init", "-5", "--plain", "--", "--", "-x"].map utf8) =
      .ok { init := some (-5), budget := some 10, plain := true,
            words := ["find", "-", "--", "-x"].map utf8 } := by
  let st : Settings :=
    { init := some (-5), budget := some 10, plain := true, words := ["find", "-", "--", "-x"].map utf8 }
  have hbudget : Setting.Spells (.budget 10) [utf8 "--budget", utf8 "10"] := by
    rw [show utf8 "10" = Decimal.ofNat (10 : UInt64).toNat by decide +kernel]
    exact .budget 10
  have hinit : Setting.Spells (.init (-5)) [utf8 "--init", utf8 "-5"] := by
    rw [show utf8 "-5" = Decimal.ofInt (-5 : Int64).toInt by decide +kernel]
    exact .init (-5)
  have hfront : Front [.budget 10, .init (-5), .plain] (["find", "-"].map utf8)
      (["find", "--budget", "10", "-", "--init", "-5", "--plain"].map utf8) :=
    .word (w := utf8 "find") (by decide) <| .setting hbudget <|
      .word (w := utf8 "-") (by decide) <| .setting hinit <| .setting .plain .nil
  exact (read_spelled st).2 _ _ (["--", "-x"].map utf8) _ (by decide) hfront rfl

end Command
end BytePattern
