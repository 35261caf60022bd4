import Chunos.Lib.Writes
import Chunos.String

/-!
# The arguments of a program

`task_setup_argv_envp` copies the name of a program, its arguments and its environment to the
page for the meta data of the task, and enters their addresses in two tables. The offsets of
the tables are in bytes, but they are added to a pointer to words, so both tables are written
four times as far behind the start of the page as the task is told they are. The strings are
copied without their terminating bytes, and whether they fit is only tested after the copy.
-/

namespace Chunos.ArgvEnvp

open Writes List Option

/-- `ARGV_META_TABLE_OFFSET`, in bytes. -/
def argvMetaTableOffset : ℕ := 256

/-- `ENV_META_TABLE_OFFSET`, in bytes. -/
def envMetaTableOffset : ℕ := 384

/-- `ARGENV_META_OFFSET`, in bytes. -/
def argenvMetaOffset : ℕ := 512

/-- `ARGV_MAX_NR`. -/
def argvMaxNr : ℕ := 32

/-- `ENV_MAX_NR`. -/
def envMaxNr : ℕ := 32

/-- The fields of the task that are set. -/
structure Task where
  argc : ℕ
  argv : ℕ
  envp : ℕ
deriving DecidableEq

/-- `align` to a word. -/
def wordAlign (addr : ℕ) : ℕ := (addr + 3) / 4 * 4

/-- `memcpy` of the characters of a string. -/
def copyString (addr : ℕ) (s : CString) : Write := ⟨addr, s.map Subtype.val⟩

/-- A store of a word to a table. -/
def storeWord (addr w : ℕ) : Write :=
  ⟨addr, [UInt8.ofNat w, UInt8.ofNat (w / 2 ^ 8), UInt8.ofNat (w / 2 ^ 16),
    UInt8.ofNat (w / 2 ^ 24)]⟩

/-- A loop of `task_setup_argv_envp`: the writes in order, and where the next string goes. It
is `none` when a string has reached the limit, which ends the function. -/
def copyStrings (limit : ℕ) : List CString → ℕ → ℕ → List Write × Option ℕ
  | [], _, str => ([], some str)
  | s :: rest, table, str =>
    if str + strlen s ≥ limit then ([copyString str s], none)
    else
      let later := copyStrings limit rest (table + 4) (wordAlign (str + strlen s))
      (copyString str s :: storeWord table str :: later.1, later.2)

/-- The `task_setup_argv_envp` function: the task afterwards, and the writes in order. The
strings are taken as they are, since they do not lie in the page. -/
def taskSetupArgvEnvp (base : ℕ) (name : CString) (argv envp : List CString) (task : Task) :
    Task × List Write :=
  let limit := base + pageSize
  let table := base + 4 * argvMetaTableOffset
  let str := base + argenvMetaOffset
  let first := [copyString str name, storeWord table str]
  let args := copyStrings limit (argv.take (argvMaxNr - 1)) (table + 4)
    (wordAlign (str + strlen name))
  match args.2 with
  | none => (task, first ++ args.1)
  | some str =>
    let task := { task with argc := (argv.take (argvMaxNr - 1)).length }
    let env := copyStrings limit (envp.take envMaxNr) (base + 4 * envMetaTableOffset) str
    match env.2 with
    | none => (task, first ++ args.1 ++ env.1)
    | some _ =>
      ({ task with argv := base + argvMetaTableOffset, envp := base + envMetaTableOffset },
        first ++ args.1 ++ env.1)

/-- The word at an address. -/
def wordAt (mem : ℕ → UInt8) (addr : ℕ) : ℕ :=
  (mem addr).toNat + (mem (addr + 1)).toNat * 2 ^ 8 + (mem (addr + 2)).toNat * 2 ^ 16 +
    (mem (addr + 3)).toNat * 2 ^ 24

/-- A terminated string is in memory. -/
def StringAt (mem : ℕ → UInt8) (addr : ℕ) (s : CString) : Prop :=
  (∀ i, ∀ hi : i < s.length, mem (addr + i) = s[i].1) ∧ mem (addr + s.length) = 0

/-- A table has the addresses of the strings, and these do not reach into the range from `low`
to `high`. -/
def TableAt (mem : ℕ → UInt8) (table low high : ℕ) (strings : List CString) : Prop :=
  ∀ k, ∀ hk : k < strings.length, StringAt mem (wordAt mem (table + 4 * k)) strings[k] ∧
    (wordAt mem (table + 4 * k) + strings[k].length < low ∨ high ≤ wordAt mem (table + 4 * k))

/-- What the program should find: the tables at the addresses in the task have the strings in
order, and the tables and the strings do not overlap. -/
structure Provided (mem : ℕ → UInt8) (task : Task) (name : CString) (argv envp : List CString) :
    Prop where
  args : TableAt mem task.argv task.argv (task.argv + 4 * (argv.length + 1)) (name :: argv)
  args_apart : TableAt mem task.argv task.envp (task.envp + 4 * envp.length) (name :: argv)
  env : TableAt mem task.envp task.envp (task.envp + 4 * envp.length) envp
  env_apart : TableAt mem task.envp task.argv (task.argv + 4 * (argv.length + 1)) envp
  tables : task.argv + 4 * (argv.length + 1) ≤ task.envp ∨ task.envp + 4 * envp.length ≤ task.argv

/-- The strings with the addresses they are copied to. -/
def placed : ℕ → List CString → List (ℕ × CString)
  | _, [] => []
  | str, s :: rest => (str, s) :: placed (wordAlign (str + s.length)) rest

/-- The strings fit in the page: the tables have room for them, and each one ends in the page
together with its terminating byte. -/
structure Fits (base : ℕ) (name : CString) (argv envp : List CString) : Prop where
  argv_le : argv.length ≤ argvMaxNr - 2
  envp_le : envp.length ≤ envMaxNr
  below : ∀ x ∈ placed (base + argenvMetaOffset) (name :: argv ++ envp),
    x.1 + x.2.length < base + pageSize

/-- The page is already prepared: the tables of the task have the addresses to which the
strings are going to be copied, the strings end in front of the tables that are written, and
behind each string there is a zero byte that is not written. -/
structure Prepared (base : ℕ) (mem : ℕ → UInt8) (name : CString) (argv envp : List CString) :
    Prop where
  argv_table : ∀ k ≤ argv.length, (placed (base + argenvMetaOffset) (name :: argv ++ envp))[k]?.map
    Prod.fst = some (wordAt mem (base + argvMetaTableOffset + 4 * k))
  envp_table : ∀ k < envp.length,
    (placed (base + argenvMetaOffset) (name :: argv ++ envp))[argv.length + 1 + k]?.map Prod.fst =
      some (wordAt mem (base + envMetaTableOffset + 4 * k))
  below : ∀ x ∈ placed (base + argenvMetaOffset) (name :: argv ++ envp),
    x.1 + x.2.length < base + 4 * argvMetaTableOffset
  gaps : ∀ s ∈ (name :: argv ++ envp).dropLast, s.length % 4 ≠ 0
  zero : ∀ x ∈ placed (base + argenvMetaOffset) (name :: argv ++ envp), mem (x.1 + x.2.length) = 0

/-- Every string up to the first one that reaches the limit is empty or ends at the limit or
in front of it. -/
def EndsInside (limit : ℕ) : ℕ → List CString → Prop
  | _, [] => True
  | str, s :: rest => (s = [] ∨ str + s.length ≤ limit) ∧
      (str + s.length < limit → EndsInside limit (wordAlign (str + s.length)) rest)

/-- The write stores only in the page. -/
def InPage (base : ℕ) (w : Write) : Prop :=
  ∀ a, w.Touches a → base ≤ a ∧ a < base + pageSize

variable {base table str a : ℕ} {strings : List CString} {places : List (ℕ × CString)}
  {ws : List Write} {x : ℕ × CString}

theorem inPage_iff {w : Write} (hlow : base ≤ w.addr) :
    InPage base w ↔ w.bytes = [] ∨ w.addr + w.bytes.length ≤ base + pageSize := by
  constructor
  · intro h
    by_cases hempty : w.bytes = []
    · exact .inl hempty
    · have hpos := length_pos_iff.mpr hempty
      have hlast := h (w.addr + w.bytes.length - 1) ⟨by omega, by omega⟩
      right
      omega
  · rintro (hempty | hend) a ⟨ha, hlt⟩
    · rw [hempty, length_nil] at hlt
      omega
    · omega

theorem inPage_storeWord (w : ℕ) (hlow : base ≤ table)
    (hhigh : table + 4 ≤ base + pageSize) : InPage base (storeWord table w) :=
  (inPage_iff hlow).mpr (.inr hhigh)

theorem inPage_copyString (s : CString) (hlow : base ≤ str) :
    InPage base (copyString str s) ↔ s = [] ∨ str + s.length ≤ base + pageSize := by
  rw [inPage_iff hlow]
  simp only [copyString, map_eq_nil_iff, length_map]

theorem le_wordAlign (addr : ℕ) : addr ≤ wordAlign addr := by
  unfold wordAlign
  omega

/-- A loop writes only in the page exactly when the strings end inside. -/
theorem copyStrings_inPage_iff (hlow : base ≤ str) (htable : base ≤ table)
    (hroom : table + 4 * strings.length ≤ base + pageSize) :
    (∀ w ∈ (copyStrings (base + pageSize) strings table str).1, InPage base w) ↔
      EndsInside (base + pageSize) str strings := by
  induction strings generalizing table str with
  | nil => simp [copyStrings, EndsInside]
  | cons s rest ih =>
    rw [length_cons] at hroom
    have hstring := inPage_copyString s hlow
    by_cases hstop : str + s.length ≥ base + pageSize
    · simp only [copyStrings, strlen, hstop, if_true, forall_mem_singleton, EndsInside, hstring]
      simp [hstop]
    · have hnext := le_wordAlign (str + s.length)
      have hrest := @ih (table + 4) (wordAlign (str + s.length)) (by omega) (by omega) (by omega)
      have hword := inPage_storeWord str htable (by omega)
      simp only [copyStrings, strlen, hstop, if_false, forall_mem_cons, EndsInside, hstring, hrest]
      constructor
      · rintro ⟨hs, -, hlater⟩
        exact ⟨hs, fun _ => hlater⟩
      · rintro ⟨hs, hlater⟩
        exact ⟨hs, hword, hlater (by omega)⟩

/-- The strings of a second loop follow those of the first one, if that comes to its end. -/
theorem endsInside_append (limit : ℕ) (strings later : List CString) (table str : ℕ) :
    EndsInside limit str (strings ++ later) ↔ EndsInside limit str strings ∧
      ∀ next, (copyStrings limit strings table str).2 = some next →
        EndsInside limit next later := by
  induction strings generalizing table str with
  | nil => simp [copyStrings, EndsInside]
  | cons s rest ih =>
    by_cases hstop : str + s.length ≥ limit
    · simp [copyStrings, strlen, hstop, EndsInside]
    · have hlt : str + s.length < limit := by omega
      simp only [cons_append, EndsInside, hlt, forall_const, copyStrings, strlen, hstop,
        if_false, ih (table + 4), and_assoc]

/-- Where the strings may end: the name is empty or ends in the page, and so do the others up
to the first one that reaches its end. -/
def AllInside (base : ℕ) (name : CString) (argv envp : List CString) : Prop :=
  (name = [] ∨ base + argenvMetaOffset + name.length ≤ base + pageSize) ∧
    EndsInside (base + pageSize) (wordAlign (base + argenvMetaOffset + name.length))
      (argv.take (argvMaxNr - 1) ++ envp.take envMaxNr)

theorem le_of_copyStrings {limit next : ℕ}
    (hnext : (copyStrings limit strings table str).2 = some next) : str ≤ next := by
  induction strings generalizing table str with
  | nil => exact (some.inj hnext).le
  | cons s rest ih =>
    by_cases hstop : str + s.length ≥ limit
    · simp [copyStrings, strlen, hstop] at hnext
    · simp only [copyStrings, strlen, hstop, if_false] at hnext
      have hle := ih hnext
      have halign := le_wordAlign (str + s.length)
      omega

/-- The loop that copies the arguments. -/
def argsLoop (base : ℕ) (name : CString) (argv : List CString) : List Write × Option ℕ :=
  copyStrings (base + pageSize) (argv.take (argvMaxNr - 1)) (base + 4 * argvMetaTableOffset + 4)
    (wordAlign (base + argenvMetaOffset + name.length))

/-- The loop that copies the environment, which is not reached when an argument has reached the
end of the page. -/
def envLoop (base : ℕ) (name : CString) (argv envp : List CString) : List Write :=
  (argsLoop base name argv).2.elim [] fun next =>
    (copyStrings (base + pageSize) (envp.take envMaxNr) (base + 4 * envMetaTableOffset) next).1

theorem taskSetupArgvEnvp_writes (base : ℕ) (name : CString) (argv envp : List CString)
    (task : Task) :
    (taskSetupArgvEnvp base name argv envp task).2 =
      [copyString (base + argenvMetaOffset) name,
        storeWord (base + 4 * argvMetaTableOffset) (base + argenvMetaOffset)] ++
      (argsLoop base name argv).1 ++ envLoop base name argv envp := by
  unfold taskSetupArgvEnvp envLoop argsLoop strlen
  dsimp only
  split
  · rename_i hnone
    rw [hnone, elim_none, append_nil]
  · rename_i next hsome
    rw [hsome, elim_some]
    split <;> rfl

/-- The function writes only in the page exactly when the strings end there. -/
theorem writes_inPage_iff (base : ℕ) (name : CString) (argv envp : List CString) (task : Task) :
    (∀ w ∈ (taskSetupArgvEnvp base name argv envp task).2, InPage base w) ↔
      AllInside base name argv envp := by
  have hpage : pageSize = 4096 := rfl
  have hargvTable : argvMetaTableOffset = 256 := rfl
  have henvTable : envMetaTableOffset = 384 := rfl
  have hstart := le_wordAlign (base + argenvMetaOffset + name.length)
  have hargv : (argv.take (argvMaxNr - 1)).length ≤ 31 := length_take_le _ _
  have henvp : (envp.take envMaxNr).length ≤ 32 := length_take_le _ _
  have hname := inPage_copyString name (show base ≤ base + argenvMetaOffset by omega)
  have hword : InPage base (storeWord (base + 4 * argvMetaTableOffset)
      (base + argenvMetaOffset)) := by
    apply inPage_storeWord <;> omega
  have hargs : (∀ w ∈ (argsLoop base name argv).1, InPage base w) ↔ EndsInside (base + pageSize)
      (wordAlign (base + argenvMetaOffset + name.length)) (argv.take (argvMaxNr - 1)) := by
    apply copyStrings_inPage_iff <;> omega
  have henv : (∀ w ∈ envLoop base name argv envp, InPage base w) ↔
      ∀ next, (argsLoop base name argv).2 = some next →
        EndsInside (base + pageSize) next (envp.take envMaxNr) := by
    unfold envLoop
    cases hnext : (argsLoop base name argv).2 with
    | none => simp
    | some next =>
      have hle := le_of_copyStrings hnext
      rw [elim_some, copyStrings_inPage_iff (by omega) (by omega) (by omega)]
      simp
  rw [taskSetupArgvEnvp_writes, AllInside, endsInside_append _ _ _
    (base + 4 * argvMetaTableOffset + 4), forall_mem_append, forall_mem_append,
    forall_mem_cons, forall_mem_singleton, hname, hargs, henv]
  constructor
  · rintro ⟨⟨⟨hfirst, -⟩, hmiddle⟩, hlast⟩
    exact ⟨hfirst, hmiddle, hlast⟩
  · rintro ⟨hfirst, hmiddle, hlast⟩
    exact ⟨⟨⟨hfirst, hword⟩, hmiddle⟩, hlast⟩

/-- The address behind the strings. -/
def nextPlace : ℕ → List CString → ℕ
  | str, [] => str
  | str, s :: rest => nextPlace (wordAlign (str + s.length)) rest

theorem placed_append (str : ℕ) (strings later : List CString) :
    placed str (strings ++ later) = placed str strings ++ placed (nextPlace str strings) later := by
  induction strings generalizing str with
  | nil => rfl
  | cons s rest ih => simp only [cons_append, placed, nextPlace, ih]

theorem placed_map_snd (str : ℕ) (strings : List CString) :
    (placed str strings).map Prod.snd = strings := by
  induction strings generalizing str with
  | nil => rfl
  | cons s rest ih => rw [placed, map_cons, ih]

theorem le_of_mem_placed (hx : x ∈ placed str strings) : str ≤ x.1 := by
  induction strings generalizing str with
  | nil => exact absurd hx not_mem_nil
  | cons s rest ih =>
    rcases mem_cons.mp hx with rfl | hx
    · exact le_rfl
    · have hle := ih hx
      have halign := le_wordAlign (str + s.length)
      omega

/-- When no string but the last one fills its words, there is a byte between each string and
the next one. -/
theorem placed_pairwise (hstr : str % 4 = 0)
    (hgaps : ∀ s ∈ strings.dropLast, s.length % 4 ≠ 0) :
    (placed str strings).Pairwise fun x y => x.1 + x.2.length < y.1 := by
  induction strings generalizing str with
  | nil => exact List.Pairwise.nil
  | cons s rest ih =>
    cases rest with
    | nil => exact pairwise_singleton _ _
    | cons t rest =>
      rw [dropLast_cons_of_ne_nil (cons_ne_nil t rest)] at hgaps
      have hs := hgaps s mem_cons_self
      have hnext : wordAlign (str + s.length) % 4 = 0 := by
        unfold wordAlign
        omega
      have hgap : str + s.length < wordAlign (str + s.length) := by
        unfold wordAlign
        omega
      refine pairwise_cons.mpr ⟨fun y hy => hgap.trans_le (le_of_mem_placed hy), ?_⟩
      exact ih hnext fun u hu => hgaps u (mem_cons_of_mem s hu)

/-- The writes of a trace are the copies of the placed strings, and stores to tables from an
address on. -/
structure Copies (table : ℕ) (places : List (ℕ × CString)) (ws : List Write) : Prop where
  copied : ∀ x ∈ places, copyString x.1 x.2 ∈ ws
  only : ∀ w ∈ ws, (∃ x ∈ places, w = copyString x.1 x.2) ∨ table ≤ w.addr

theorem Copies.append {table' : ℕ} {places' : List (ℕ × CString)} {ws' : List Write}
    (h : Copies table places ws) (h' : Copies table' places' ws') (htable : table ≤ table') :
    Copies table (places ++ places') (ws ++ ws') where
  copied := by
    intro x hx
    rcases mem_append.mp hx with hx | hx
    · exact mem_append_left _ (h.copied x hx)
    · exact mem_append_right _ (h'.copied x hx)
  only := by
    intro w hw
    rcases mem_append.mp hw with hw | hw
    · rcases h.only w hw with ⟨x, hx, rfl⟩ | hle
      · exact .inl ⟨x, mem_append_left _ hx, rfl⟩
      · exact .inr hle
    · rcases h'.only w hw with ⟨x, hx, rfl⟩ | hle
      · exact .inl ⟨x, mem_append_right _ hx, rfl⟩
      · exact .inr (htable.trans hle)

/-- A loop whose strings all end in front of the limit copies them to their places. -/
theorem copyStrings_of_below {limit : ℕ} {strings : List CString} {table str : ℕ}
    (hbelow : ∀ x ∈ placed str strings, x.1 + x.2.length < limit) :
    (copyStrings limit strings table str).2 = some (nextPlace str strings) ∧
      Copies table (placed str strings) (copyStrings limit strings table str).1 := by
  induction strings generalizing table str with
  | nil => exact ⟨rfl, by simp [placed], by simp [copyStrings]⟩
  | cons s rest ih =>
    have hend : str + s.length < limit := hbelow (str, s) mem_cons_self
    have hs : ¬ str + s.length ≥ limit := by omega
    obtain ⟨hnext, hcopies⟩ := @ih (table + 4) (wordAlign (str + s.length))
      fun x hx => hbelow x (mem_cons_of_mem _ hx)
    have hhead : Copies table [(str, s)] [copyString str s, storeWord table str] :=
      ⟨by simp, by simp [storeWord]⟩
    simp only [copyStrings, strlen, hs, if_false]
    exact ⟨hnext, hhead.append hcopies (by omega)⟩

/-- When the strings fit, both loops come to their ends and every string is copied to its
place. -/
theorem Fits.taskSetupArgvEnvp {base : ℕ} {name : CString} {argv envp : List CString}
    (h : Fits base name argv envp) (task : Task) :
    (taskSetupArgvEnvp base name argv envp task).1 =
        ⟨argv.length, base + argvMetaTableOffset, base + envMetaTableOffset⟩ ∧
      Copies (base + 4 * argvMetaTableOffset)
        (placed (base + argenvMetaOffset) (name :: argv ++ envp))
        (taskSetupArgvEnvp base name argv envp task).2 := by
  have hargvLe := h.argv_le
  have henvpLe := h.envp_le
  have hargvTake : argv.take (argvMaxNr - 1) = argv := take_of_length_le (by omega)
  have henvpTake : envp.take envMaxNr = envp := take_of_length_le henvpLe
  have hbelow := h.below
  rw [cons_append, placed] at hbelow ⊢
  rw [placed_append] at hbelow ⊢
  obtain ⟨hnext, hargs⟩ := @copyStrings_of_below (base + pageSize) argv
    (base + 4 * argvMetaTableOffset + 4) (wordAlign (base + argenvMetaOffset + name.length))
    fun x hx => hbelow x (by simp [hx])
  obtain ⟨hend, henv⟩ := @copyStrings_of_below (base + pageSize) envp
    (base + 4 * envMetaTableOffset) _ fun x hx => hbelow x (mem_cons_of_mem _
      (mem_append_right _ hx))
  have hhead : Copies (base + 4 * argvMetaTableOffset) [(base + argenvMetaOffset, name)]
      [copyString (base + argenvMetaOffset) name,
        storeWord (base + 4 * argvMetaTableOffset) (base + argenvMetaOffset)] :=
    ⟨by simp, by simp [storeWord]⟩
  have hall := (hhead.append hargs (by omega)).append henv
    (by simp only [argvMetaTableOffset, envMetaTableOffset]; omega)
  have hargsLoop : argsLoop base name argv = copyStrings (base + pageSize) argv
      (base + 4 * argvMetaTableOffset + 4)
      (wordAlign (base + argenvMetaOffset + name.length)) := by
    rw [argsLoop, hargvTake]
  constructor
  · unfold ArgvEnvp.taskSetupArgvEnvp strlen
    simp only [hargvTake, henvpTake, hnext, hend]
  · rw [taskSetupArgvEnvp_writes, envLoop, hargsLoop, hnext, elim_some, henvpTake]
    exact hall

theorem eq_or_apart (hplaces : places.Pairwise fun x y => x.1 + x.2.length < y.1) {y : ℕ × CString}
    (hx : x ∈ places) (hy : y ∈ places) :
    x = y ∨ x.1 + x.2.length < y.1 ∨ y.1 + y.2.length < x.1 := by
  have hsymm : Std.Symm fun x y : ℕ × CString =>
      x.1 + x.2.length < y.1 ∨ y.1 + y.2.length < x.1 := ⟨fun _ _ => Or.symm⟩
  have hpairs : places.Pairwise fun x y =>
      x.1 + x.2.length < y.1 ∨ y.1 + y.2.length < x.1 := hplaces.imp Or.inl
  by_cases heq : x = y
  · exact .inl heq
  · exact .inr (hpairs.forall hx hy heq)

theorem touches_copyString {addr : ℕ} {s : CString} :
    (copyString addr s).Touches a ↔ addr ≤ a ∧ a < addr + s.length := by
  simp [Write.Touches, copyString]

theorem Copies.applyAll_of_outside (h : Copies table places ws) (mem : ℕ → UInt8) (ha : a < table)
    (hout : ∀ x ∈ places, a < x.1 ∨ x.1 + x.2.length ≤ a) : applyAll mem ws a = mem a := by
  apply applyAll_of_untouched
  intro w hw htouch
  rcases h.only w hw with ⟨x, hx, rfl⟩ | hle
  · have hin := touches_copyString.mp htouch
    have hx' := hout x hx
    omega
  · have hlow := htouch.1
    omega

/-- A string in front of the tables is terminated when it has a zero byte behind it. -/
theorem Copies.stringAt (h : Copies table places ws)
    (hplaces : places.Pairwise fun x y => x.1 + x.2.length < y.1) (mem : ℕ → UInt8) (hx : x ∈ places)
    (hbelow : x.1 + x.2.length < table) (hzero : mem (x.1 + x.2.length) = 0) :
    StringAt (applyAll mem ws) x.1 x.2 := by
  constructor
  · intro i hi
    apply applyAll_of_agree
    · exact ⟨_, h.copied x hx, touches_copyString.mpr ⟨by omega, by omega⟩⟩
    · intro w hw htouch
      rcases h.only w hw with ⟨y, hy, rfl⟩ | hle
      · have hin := touches_copyString.mp htouch
        obtain rfl : x = y := (eq_or_apart hplaces hx hy).resolve_right (by omega)
        simp [copyString, hi]
      · have hlow := htouch.1
        omega
  · rw [h.applyAll_of_outside mem hbelow, hzero]
    intro y hy
    rcases eq_or_apart hplaces hx hy with rfl | hlt | hlt
    · exact .inr le_rfl
    · exact .inl hlt
    · exact .inr (by omega)

theorem Copies.wordAt_eq
    (h : Copies (base + 4 * argvMetaTableOffset) (placed (base + argenvMetaOffset) strings) ws)
    (mem : ℕ → UInt8) (ha : a + 4 ≤ base + argenvMetaOffset) :
    wordAt (applyAll mem ws) a = wordAt mem a := by
  have hbytes : ∀ i < 4, applyAll mem ws (a + i) = mem (a + i) := by
    intro i hi
    apply h.applyAll_of_outside mem
    · simp only [argvMetaTableOffset, argenvMetaOffset] at ha ⊢
      omega
    · intro x hx
      have hle := le_of_mem_placed hx
      omega
  have hzero := hbytes 0 (by omega)
  rw [Nat.add_zero] at hzero
  rw [wordAt, hzero, hbytes 1 (by omega), hbytes 2 (by omega), hbytes 3 (by omega), wordAt]

/-- A table that already has the addresses of its strings is right once they are copied. -/
theorem Copies.tableAt {table : List CString}
    (h : Copies (base + 4 * argvMetaTableOffset) (placed (base + argenvMetaOffset) strings) ws)
    {mem : ℕ → UInt8}
    (hstrings : ∀ x ∈ placed (base + argenvMetaOffset) strings,
      StringAt (applyAll mem ws) x.1 x.2) {addr from' low high : ℕ}
    (htable : ∀ k, ∀ hk : k < table.length, strings[from' + k]? = some table[k])
    (haddr : addr + 4 * table.length ≤ base + argenvMetaOffset)
    (hprepared : ∀ k < table.length, (placed (base + argenvMetaOffset) strings)[from' + k]?.map
      Prod.fst = some (wordAt mem (addr + 4 * k)))
    (hhigh : high ≤ base + argenvMetaOffset) :
    TableAt (applyAll mem ws) addr low high table := by
  intro k hk
  obtain ⟨x, hget, hfst⟩ := map_eq_some_iff.mp (hprepared k hk)
  have hmem := mem_of_getElem? hget
  have hsnd : x.2 = table[k] := by
    have hmap := congrArg (fun l => l[from' + k]?)
      (placed_map_snd (base + argenvMetaOffset) strings)
    simpa [hget, htable k hk] using hmap
  have hword : wordAt (applyAll mem ws) (addr + 4 * k) = x.1 := by
    rw [h.wordAt_eq mem (by omega), hfst]
  rw [hword, ← hsnd]
  exact ⟨hstrings x hmem, .inr (hhigh.trans (le_of_mem_placed hmem))⟩

/-- On a prepared page the program finds its arguments. -/
theorem Prepared.provided {base : ℕ} (hbase : pageSize ∣ base) {mem : ℕ → UInt8} {name : CString}
    {argv envp : List CString} (hfits : Fits base name argv envp)
    (h : Prepared base mem name argv envp) (task : Task) :
    Provided (applyAll mem (taskSetupArgvEnvp base name argv envp task).2)
      (taskSetupArgvEnvp base name argv envp task).1 name argv envp := by
  obtain ⟨htask, hcopies⟩ := hfits.taskSetupArgvEnvp task
  have hargv := hfits.argv_le
  have henvp := hfits.envp_le
  have hstart : (base + argenvMetaOffset) % 4 = 0 := by
    simp only [pageSize, argenvMetaOffset] at hbase ⊢
    omega
  have hplaces := placed_pairwise hstart h.gaps
  have hstrings : ∀ x ∈ placed (base + argenvMetaOffset) (name :: argv ++ envp), StringAt
      (applyAll mem (taskSetupArgvEnvp base name argv envp task).2) x.1 x.2 := fun x hx =>
    hcopies.stringAt hplaces mem hx (h.below x hx) (h.zero x hx)
  have hargs : ∀ k, ∀ hk : k < (name :: argv).length,
      (name :: argv ++ envp)[0 + k]? = some (name :: argv)[k] := by
    intro k hk
    rw [Nat.zero_add, getElem?_append_left hk, getElem?_eq_getElem hk]
  have henv : ∀ k, ∀ hk : k < envp.length,
      (name :: argv ++ envp)[argv.length + 1 + k]? = some envp[k] := by
    intro k hk
    rw [getElem?_append_right (by simp), ← getElem?_eq_getElem hk]
    simp
  have hargsPrepared : ∀ k < (name :: argv).length,
      (placed (base + argenvMetaOffset) (name :: argv ++ envp))[0 + k]?.map Prod.fst =
        some (wordAt mem (base + argvMetaTableOffset + 4 * k)) := by
    intro k hk
    rw [Nat.zero_add]
    exact h.argv_table k (Nat.le_of_lt_succ hk)
  have hargvMax : argvMaxNr = 32 := rfl
  have henvMax : envMaxNr = 32 := rfl
  have hargvTable : argvMetaTableOffset = 256 := rfl
  have henvTable : envMetaTableOffset = 384 := rfl
  have hstrStart : argenvMetaOffset = 512 := rfl
  have hlength : (name :: argv).length = argv.length + 1 := length_cons
  have hargsEnd : base + argvMetaTableOffset + 4 * (name :: argv).length ≤
      base + argenvMetaOffset := by
    omega
  have henvEnd : base + envMetaTableOffset + 4 * envp.length ≤ base + argenvMetaOffset := by
    omega
  rw [htask]
  exact {
    args := hcopies.tableAt hstrings hargs hargsEnd hargsPrepared (by dsimp only; omega)
    args_apart := hcopies.tableAt hstrings hargs hargsEnd hargsPrepared (by dsimp only; omega)
    env := hcopies.tableAt hstrings henv henvEnd h.envp_table (by dsimp only; omega)
    env_apart := hcopies.tableAt hstrings henv henvEnd h.envp_table (by dsimp only; omega)
    tables := .inl (by dsimp only; omega) }

/-- The function writes only in the page exactly when the strings end there, up to the first
one that reaches its end; and when they fit, the program finds its arguments on a page that is
already prepared. -/
theorem taskSetupArgvEnvp_spec {base : ℕ} (hbase : pageSize ∣ base) (name : CString)
    (argv envp : List CString) (task : Task) :
    ((∀ w ∈ (taskSetupArgvEnvp base name argv envp task).2, InPage base w) ↔
      AllInside base name argv envp) ∧
    ∀ mem : ℕ → UInt8, Fits base name argv envp → Prepared base mem name argv envp →
      Provided (applyAll mem (taskSetupArgvEnvp base name argv envp task).2)
        (taskSetupArgvEnvp base name argv envp task).1 name argv envp :=
  ⟨writes_inPage_iff base name argv envp task, fun _ hfits hprepared =>
    hprepared.provided hbase hfits task⟩

/-- The name of a shell, `sh`. -/
def shell : CString := [⟨115, by decide⟩, ⟨104, by decide⟩]

theorem shell_fits : Fits 0x400000 shell [] [] :=
  ⟨by decide, by decide, by decide⟩

/-- A page that already has the address of the name in the table of the arguments. -/
def preparedPage : ℕ → UInt8 := fun a =>
  if a = 0x400101 then 0x02 else if a = 0x400102 then 0x40 else 0

/-- The shell finds its name on the prepared page. -/
theorem taskSetupArgvEnvp_spec_shell :
    Provided (applyAll preparedPage (taskSetupArgvEnvp 0x400000 shell [] [] ⟨0, 0, 0⟩).2)
      (taskSetupArgvEnvp 0x400000 shell [] [] ⟨0, 0, 0⟩).1 shell [] [] := by
  refine (taskSetupArgvEnvp_spec (by decide) shell [] [] ⟨0, 0, 0⟩).2 preparedPage shell_fits ?_
  exact {
    argv_table := by decide
    envp_table := by decide
    below := by decide
    gaps := by decide
    zero := by decide }

/-- On a page of zeros the table of the shell has no address of its name: it was written 1024
bytes behind the start of the page, and the task is told 256. -/
theorem shell_loses_its_name : let result := taskSetupArgvEnvp 0x400000 shell [] [] ⟨0, 0, 0⟩
    let mem := applyAll (fun _ => 0) result.2
    Fits 0x400000 shell [] [] ∧ result.1.argv = 0x400100 ∧ wordAt mem 0x400100 = 0 ∧
      wordAt mem 0x400400 = 0x400200 ∧ ¬ Provided mem result.1 shell [] [] := by
  intro result mem
  refine ⟨shell_fits, by decide, by decide, by decide, fun h => ?_⟩
  have hfirst := (h.args 0 (by decide)).1.1 0 (by decide)
  revert hfirst
  decide

end Chunos.ArgvEnvp
