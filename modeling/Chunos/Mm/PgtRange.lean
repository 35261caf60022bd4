import Chunos.Mm.PgtMap

/-!
# Mapping lists of pages

`pgt_map_normal_memory` maps a list of pages upwards and `pgt_map_stack_memory` maps one
downwards. Both move through the entries of a table and fetch the address of the entry again
after a number of entries that is given by the rounding of the address. For the stack the
rounding fits. The other loop always fetches the entry of the first page, so it gets right
only the pages up to the next multiple of 256 pages, and writes no other entries.
-/

namespace Chunos.Pgt

open List Option

theorem page_entries (n : ℕ) :
    pageSize * n / pdeMapSize = n / 1024 ∧ pageSize * n % pdeMapSize / pageSize = n % 1024 ∧
      pageSize * n / pageSize = n := by
  simp only [pageSize, pdeMapSize]
  omega

/-- The pages that `pgt_map_normal_memory` maps before it starts again: up to the next
multiple of 256 pages. -/
def normalRoom (mapBase : ℕ) : ℕ := 256 - mapBase / pageSize % 256

variable {b c pte pte' pteEnd pteEnd' va n page : ℕ} {ret : ℤ}

/-- Where the loop of `pgt_map_normal_memory` stands: before a fetch, or at the entry of
page `b + c`. -/
def NormalAt (dir : ℕ → Option ℕ) (b c pte pteEnd : ℕ) : Prop :=
  pte = pteEnd ∧ c = 0 ∨
    c < 256 - b % 256 ∧ ∃ f, dir (b / 1024) = some f ∧ f + 1 < 2 ^ 20 ∧
      pte = pageSize * f + 4 * (b % 1024) + 4 * c ∧
      pteEnd = pageSize * f + 4 * (b % 1024) + 4 * (256 - b % 256)

/-- The fetch in the loops over pages: at `pteEnd` the entry for `va` is fetched, and the new
end is computed from it. -/
def fetchEntry (endOf : ℕ → ℕ) (va pte pteEnd : ℕ) (table : TaskPageTable) (s : Frames) :
    Option (ℕ × ℕ × TaskPageTable × Frames) :=
  if pte = pteEnd then
    (pgtGetMappedPteAddr table va s).map fun (pte, table, s) => (pte, endOf pte, table, s)
  else some (pte, pteEnd, table, s)

/-- What the two loops have in common: page `j` of the list is mapped at `va j`, through the
entry that is fetched for `fetchVa j` or is the next one. -/
def mapPages (endOf next fetchVa va : ℕ → ℕ) :
    List ℕ → ℕ → ℕ → ℕ → TaskPageTable → Frames → ℤ × TaskPageTable × Frames
  | [], _, _, _, table, s => (0, table, s)
  | page :: list, j, pte, pteEnd, table, s =>
    match fetchEntry endOf (fetchVa j) pte pteEnd table s with
    | none => (-enomem, table, s)
    | some (pte, pteEnd, table, s) =>
      mapPages endOf next fetchVa va list (j + 1) (next pte) pteEnd table
        (mapEntry s pte page (va j))

/-- The loop of `pgt_map_normal_memory` goes upwards and fetches for its first page. -/
theorem mapNormalLoop_eq (mapBase : ℕ) (list : List ℕ) (j pte pteEnd : ℕ) (table : TaskPageTable)
    (s : Frames) : mapNormalLoop mapBase list (mapBase + pageSize * j) pte pteEnd table s =
      mapPages (fun pte => addrMinAlign (pte + ptesPerPde) ptesPerPde) (· + entrySize)
        (fun _ => mapBase) (fun j => mapBase + pageSize * j) list j pte pteEnd table s := by
  induction list generalizing j pte pteEnd table s with
  | nil => rfl
  | cons page list ih =>
    simp only [mapNormalLoop, Nat.add_assoc, ← Nat.mul_add_one, ih]
    rfl

/-- The loop of `pgt_map_stack_memory` goes downwards and fetches for the page it has got to. -/
theorem mapStackLoop_eq (base : ℕ) (list : List ℕ) (j pte pteEnd : ℕ) (table : TaskPageTable)
    (s : Frames) : mapStackLoop list (base - pageSize * j) pte pteEnd table s =
      mapPages (fun pte => addrMinAlign (pte - ptesPerPde) ptesPerPde - entrySize) (· - entrySize)
        (fun j => base - pageSize * (j + 1)) (fun j => base - pageSize * (j + 1)) list j pte pteEnd
        table s := by
  induction list generalizing j pte pteEnd table s with
  | nil => rfl
  | cons page list ih =>
    simp only [mapStackLoop, Nat.sub_sub, ← Nat.mul_add_one, ih]
    rfl

variable {s s' : Frames} {table table' : TaskPageTable} {dir : ℕ → Option ℕ} {own : ℕ → Prop}

/-- What the loops over pages need of a page table: `I` holds of it and is kept when the entry of
an address is fetched and when the entry of one of the `pages` is written. Each of these steps
leaves `G` between the state before and after it. -/
structure Maps (pages : ℕ → Prop)
    (I : Frames → TaskPageTable → (ℕ → Option ℕ) → (ℕ → Prop) → Prop)
    (G : Frames → Frames → TaskPageTable → TaskPageTable → (ℕ → Prop) → (ℕ → Prop) → Prop) :
    Prop where
  refl : ∀ s table own, G s s table table own own
  trans : ∀ {s s' s'' table table' table'' own own' own''}, G s s' table table' own own' →
    G s' s'' table' table'' own' own'' → G s s'' table table'' own own''
  frame : ∀ {s table dir own i f}, I s table dir own → dir i = some f → 0 < f ∧ f + 1 < 2 ^ 20
  getMapped : ∀ {s s' table table' dir own va pte}, I s table dir own → va < kernelVirtualBase →
    pgtGetMappedPteAddr table va s = some (pte, table', s') →
    ∃ dir' own' f, I s' table' dir' own' ∧ G s s' table table' own own' ∧
      (∀ va', lookup s'.word dir' va' = lookup s.word dir va') ∧
      dir' (va / pdeMapSize) = some f ∧ pte = pageSize * f + 4 * (va % pdeMapSize / pageSize)
  mapEntry : ∀ {s table dir own f page pte} va, I s table dir own →
    dir (va / pdeMapSize) = some f → pages page → ∀ base,
    pte = pageSize * f + 4 * (va % pdeMapSize / pageSize) →
    I (mapEntry s pte page base) table dir own ∧
      G s (mapEntry s pte page base) table table own own ∧
      ∀ va', lookup (mapEntry s pte page base).word dir va' =
        if va' / pageSize = va / pageSize then some page else lookup s.word dir va'

theorem maps_ready (pages : ℕ → Prop) : Maps pages Ready (Grows pages) where
  refl := Grows.refl pages
  trans := Grows.trans
  frame h hdir := (h.directory.frame _ _ hdir).2
  getMapped h := h.getMapped pages
  mapEntry va h hdir hpage base := h.mapEntry va hdir hpage base

variable {pages : ℕ → Prop}
  {I : Frames → TaskPageTable → (ℕ → Option ℕ) → (ℕ → Prop) → Prop}
  {G : Frames → Frames → TaskPageTable → TaskPageTable → (ℕ → Prop) → (ℕ → Prop) → Prop}

/-- A fetch gets the entry of the address, or it leaves everything as it is. -/
theorem fetchEntry_cases {endOf : ℕ → ℕ}
    (h : fetchEntry endOf va pte pteEnd table s = some (pte', pteEnd', table', s')) :
    pte = pteEnd ∧ pgtGetMappedPteAddr table va s = some (pte', table', s') ∧ pteEnd' = endOf pte' ∨
      pte ≠ pteEnd ∧ pte' = pte ∧ pteEnd' = pteEnd ∧ table' = table ∧ s' = s := by
  unfold fetchEntry at h
  split_ifs at h with heq
  · obtain ⟨⟨pte₁, table₁, s₁⟩, hget, hres⟩ := map_eq_some_iff.mp h
    cases hres
    exact .inl ⟨heq, hget, rfl⟩
  · cases h
    exact .inr ⟨heq, rfl, rfl, rfl, rfl⟩

theorem pageSize_mul_lt_kernelVirtualBase (hn : n < 2 ^ 19) : pageSize * n < kernelVirtualBase := by
  simp only [pageSize, kernelVirtualBase]
  omega

/-- The page of the list that comes last at page `n`, when page `j` of the list is put at page
`number j`. -/
def placed (number : ℕ → ℕ) : List ℕ → ℕ → Option ℕ
  | [], _ => none
  | page :: list, n =>
    (placed (fun j => number (j + 1)) list n).or (if n = number 0 then some page else none)

variable {list : List ℕ}

theorem placed_eq_none (number : ℕ → ℕ) (h : ∀ j < list.length, n ≠ number j) :
    placed number list n = none := by
  induction list generalizing number with
  | nil => rfl
  | cons page list ih =>
    rw [placed, ih _ fun j hj => h (j + 1) (by simpa using hj), if_neg (h 0 (by simp))]
    rfl

/-- No page behind page `j` of the list is put there. -/
theorem placed_eq_some (number : ℕ → ℕ) {j : ℕ} (hj : list[j]? = some page)
    (hlast : ∀ i, j < i → i < list.length → number j ≠ number i) :
    placed number list (number j) = some page := by
  induction list generalizing number j with
  | nil => simp at hj
  | cons first list ih =>
    cases j with
    | zero =>
      obtain rfl : first = page := by simpa using hj
      rw [placed, if_pos rfl, placed_eq_none _ fun i hi =>
        hlast (i + 1) (by omega) (by simpa using hi)]
      rfl
    | succ j =>
      rw [getElem?_cons_succ] at hj
      have hsome := ih (fun j => number (j + 1)) hj fun i hji hi =>
        hlast (i + 1) (by omega) (by simpa using hi)
      rw [placed, hsome]
      rfl

section
variable (hI : Maps pages I G)
include hI

/-- A loop over pages puts page `j` of the list at page `number j`, when each fetch leads to the
entry of that page. The position `At` is kept by the fetch and the step to the next entry. -/
theorem Maps.mapPages (number : ℕ → ℕ) (At : (ℕ → Option ℕ) → ℕ → ℕ → ℕ → Prop)
    {endOf next fetchVa vas : ℕ → ℕ} {bound j : ℕ}
    (hfetch : ∀ {s s' table table' dir own j pte pteEnd pte' pteEnd'}, I s table dir own →
      j < bound → At dir j pte pteEnd →
      fetchEntry endOf (fetchVa j) pte pteEnd table s = some (pte', pteEnd', table', s') →
      ∃ dir' own' f, I s' table' dir' own' ∧ G s s' table table' own own' ∧
        (∀ va, lookup s'.word dir' va = lookup s.word dir va) ∧
        dir' (number j / 1024) = some f ∧ pte' = pageSize * f + 4 * (number j % 1024) ∧
        At dir' (j + 1) (next pte') pteEnd')
    (hpages : ∀ p ∈ list, pages p) (hbound : j + list.length ≤ bound) (h : I s table dir own)
    (hat : At dir j pte pteEnd)
    (hloop : mapPages endOf next fetchVa vas list j pte pteEnd table s = (ret, table', s')) :
    ∃ dir' own', I s' table' dir' own' ∧ G s s' table table' own own' ∧
      (ret = 0 → ∀ va, lookup s'.word dir' va =
        (placed (fun i => number (j + i)) list (va / pageSize)).or (lookup s.word dir va)) := by
  induction list generalizing s table dir own j pte pteEnd with
  | nil =>
    cases hloop
    exact ⟨dir, own, h, hI.refl _ _ own, fun _ _ => rfl⟩
  | cons page list ih =>
    rw [length_cons] at hbound
    rw [Pgt.mapPages] at hloop
    cases hres : fetchEntry endOf (fetchVa j) pte pteEnd table s with
    | none =>
      rw [hres] at hloop
      cases hloop
      exact ⟨dir, own, h, hI.refl _ _ own, fun hret => absurd hret (by decide)⟩
    | some res =>
      obtain ⟨pte₁, pteEnd₁, table₁, s₁⟩ := res
      simp only [hres] at hloop
      obtain ⟨dir₁, own₁, f, h₁, hgrows₁, hlookup₁, hdir, hpte, hat₁⟩ :=
        hfetch h (by omega) hat hres
      obtain ⟨hdiv, hmod, hpage⟩ := page_entries (number j)
      obtain ⟨h₂, hgrows₂, hlookup₂⟩ := hI.mapEntry (pageSize * number j) h₁ (by rwa [hdiv])
        (hpages page mem_cons_self) (vas j) (hpte.trans (by rw [hmod]))
      obtain ⟨dir', own', h', hgrows, hlookup⟩ :=
        ih (fun p hp => hpages p (mem_cons_of_mem page hp)) (by omega) h₂ hat₁ hloop
      refine ⟨dir', own', h', hI.trans (hI.trans hgrows₁ hgrows₂) hgrows, fun hret va => ?_⟩
      rw [hlookup hret, hlookup₂, hlookup₁, hpage, placed, Option.or_assoc]
      simp only [Nat.add_zero, Nat.add_assoc, Nat.add_comm 1]
      split_ifs <;> rfl

/-- The fetch of `pgt_map_normal_memory` leads to the entry of page `b + j`, or of a page from
`b` on again. -/
theorem Maps.normalFetch {j : ℕ} (h : I s table dir own) (hb : b < 2 ^ 19)
    (hat : NormalAt dir b (j % (256 - b % 256)) pte pteEnd)
    (hfetch : fetchEntry (fun pte => addrMinAlign (pte + ptesPerPde) ptesPerPde) (pageSize * b) pte
      pteEnd table s = some (pte', pteEnd', table', s')) :
    ∃ dir' own' f, I s' table' dir' own' ∧ G s s' table table' own own' ∧
      (∀ va, lookup s'.word dir' va = lookup s.word dir va) ∧
      dir' ((b + j % (256 - b % 256)) / 1024) = some f ∧
      pte' = pageSize * f + 4 * ((b + j % (256 - b % 256)) % 1024) ∧
      NormalAt dir' b ((j + 1) % (256 - b % 256)) (pte' + entrySize) pteEnd' := by
  obtain ⟨hdiv, hmod, -⟩ := page_entries b
  have hc : j % (256 - b % 256) < 256 - b % 256 := Nat.mod_lt _ (by omega)
  have hsucc : (j + 1) % (256 - b % 256) = (j % (256 - b % 256) + 1) % (256 - b % 256) :=
    (Nat.mod_add_mod _ _ _).symm
  generalize j % (256 - b % 256) = c at hat hc hsucc ⊢
  have hplace : (b + c) / 1024 = b / 1024 ∧ (b + c) % 1024 = b % 1024 + c := by omega
  rw [hsucc, hplace.1, hplace.2]
  obtain ⟨dir', own', f, h', hgrows, hlookup, hdir, hf, hpte, hend⟩ :
      ∃ dir' own' f, I s' table' dir' own' ∧ G s s' table table' own own' ∧
        (∀ va, lookup s'.word dir' va = lookup s.word dir va) ∧ dir' (b / 1024) = some f ∧
        f + 1 < 2 ^ 20 ∧ pte' = pageSize * f + 4 * (b % 1024) + 4 * c ∧
        pteEnd' = pageSize * f + 4 * (b % 1024) + 4 * (256 - b % 256) := by
    obtain ⟨heq, hget, rfl⟩ | ⟨hne, rfl, rfl, rfl, rfl⟩ := fetchEntry_cases hfetch
    · obtain ⟨-, rfl⟩ | ⟨-, f, -, -, rfl, rfl⟩ := hat
      · obtain ⟨dir', own', f, h', hgrows, hlookup, hdir, rfl⟩ :=
          hI.getMapped h (pageSize_mul_lt_kernelVirtualBase hb) hget
        rw [hdiv] at hdir
        have hf := (hI.frame h' hdir).2
        refine ⟨dir', own', f, h', hgrows, hlookup, hdir, hf, ?_, ?_⟩
        · rw [hmod, Nat.mul_zero, Nat.add_zero]
        · rw [hmod, show ptesPerPde = 2 ^ 10 from rfl, addrMinAlign_two_pow (by decide)] <;>
            simp only [pageSize] <;> omega
      · omega
    · obtain ⟨heq, -⟩ | ⟨-, f, hdir, hf, rfl, rfl⟩ := hat
      · exact absurd heq hne
      · exact ⟨dir, own, f, h, hI.refl s' table' own, fun _ => rfl, hdir, hf, rfl, rfl⟩
  refine ⟨dir', own', f, h', hgrows, hlookup, hdir, by omega, ?_⟩
  -- The loop is then at the next page, or has to fetch again.
  rcases (Nat.succ_le_of_lt hc).eq_or_lt with hfull | hlt
  · refine .inl ⟨?_, by rw [← hfull]; exact Nat.mod_self _⟩
    rw [hpte, hend, ← hfull, entrySize]
    omega
  · rw [Nat.mod_eq_of_lt hlt]
    refine .inr ⟨hlt, f, hdir, hf, ?_, hend⟩
    rw [hpte, entrySize]
    omega

/-- `pgt_map_normal_memory` puts page `j` of the list at page `b + j`, but it starts again at
page `b` when it gets to a multiple of 256. A page stays where no later one is put. -/
theorem Maps.pgtMapNormalMemory (hpages : ∀ p ∈ list, pages p) (hb : b < 2 ^ 19)
    (h : I s table dir own)
    (hmap : pgtMapNormalMemory table list (pageSize * b) s = (ret, table', s')) :
    ∃ dir' own', I s' table' dir' own' ∧ G s s' table table' own own' ∧
      (ret = 0 →
        (∀ va, (∀ j < list.length, va / pageSize ≠ b + j % normalRoom (pageSize * b)) →
          lookup s'.word dir' va = lookup s.word dir va) ∧
        ∀ j p, list[j]? = some p → (∀ i, j < i → i < list.length →
            j % normalRoom (pageSize * b) ≠ i % normalRoom (pageSize * b)) →
          lookup s'.word dir' (pageSize * (b + j % normalRoom (pageSize * b))) = some p) := by
  unfold Pgt.pgtMapNormalMemory at hmap
  split_ifs at hmap with hzero
  · cases hmap
    exact ⟨dir, own, h, hI.refl s table own, fun hret => absurd hret (by decide)⟩
  · have hloop := mapNormalLoop_eq (pageSize * b) list 0 0 0 table s
    rw [Nat.mul_zero, Nat.add_zero, hmap] at hloop
    obtain ⟨dir', own', hready, hgrows, hlookup⟩ := hI.mapPages
      (fun j => b + j % (256 - b % 256)) (fun dir j => NormalAt dir b (j % (256 - b % 256)))
      (fun h _ => hI.normalFetch h hb) hpages le_rfl h (.inl ⟨rfl, Nat.zero_mod _⟩) hloop.symm
    simp only [Nat.zero_add] at hlookup
    rw [normalRoom, (page_entries b).2.2]
    refine ⟨dir', own', hready, hgrows, fun hret => ⟨fun va hva => ?_, fun j p hj hlast => ?_⟩⟩
    · rw [hlookup hret, placed_eq_none _ hva, none_or]
    · rw [hlookup hret, (page_entries _).2.2, placed_eq_some (fun j => b + j % (256 - b % 256)) hj
        fun i hji hi heq => hlast i hji hi (Nat.add_left_cancel heq), some_or]

/-- Where the loop of `pgt_map_stack_memory` stands when it has come down to page `n`: before
a fetch at every multiple of 512 pages, and else at the entry of the page below. -/
def StackAt (dir : ℕ → Option ℕ) (n pte pteEnd : ℕ) : Prop :=
  pte = pteEnd ∧ n % 512 = 0 ∨
    n % 512 ≠ 0 ∧ ∃ f, dir ((n - 1) / 1024) = some f ∧ 0 < f ∧
      pte = pageSize * f + 4 * ((n - 1) % 1024) ∧
      pteEnd + 4 = pageSize * f + 4 * ((n - 1) % 1024 / 512 * 512)

/-- The fetch of `pgt_map_stack_memory` leads to the entry of the next page below. -/
theorem Maps.stackFetch {j : ℕ} (h : I s table dir own) (hj : j < 2 ^ 19)
    (hat : StackAt dir (2 ^ 19 - j) pte pteEnd)
    (hfetch : fetchEntry (fun pte => addrMinAlign (pte - ptesPerPde) ptesPerPde - entrySize)
      (kernelVirtualBase - pageSize * (j + 1)) pte pteEnd table s =
        some (pte', pteEnd', table', s')) :
    ∃ dir' own' f, I s' table' dir' own' ∧ G s s' table table' own own' ∧
      (∀ va, lookup s'.word dir' va = lookup s.word dir va) ∧
      dir' ((2 ^ 19 - 1 - j) / 1024) = some f ∧
      pte' = pageSize * f + 4 * ((2 ^ 19 - 1 - j) % 1024) ∧
      StackAt dir' (2 ^ 19 - (j + 1)) (pte' - entrySize) pteEnd' := by
  obtain ⟨n, hn, hbefore⟩ : ∃ n < 2 ^ 19, 2 ^ 19 - j = n + 1 := ⟨2 ^ 19 - 1 - j, by omega, by omega⟩
  have hva : kernelVirtualBase - pageSize * (j + 1) = pageSize * n := by
    simp only [kernelVirtualBase, pageSize]
    omega
  rw [show 2 ^ 19 - 1 - j = n by omega, show 2 ^ 19 - (j + 1) = n by omega]
  rw [hbefore] at hat
  rw [hva] at hfetch
  obtain ⟨hdiv, hmod, -⟩ := page_entries n
  obtain ⟨dir', own', f, h', hgrows, hlookup, hdir, hpos, hpte, hend⟩ :
      ∃ dir' own' f, I s' table' dir' own' ∧ G s s' table table' own own' ∧
        (∀ va, lookup s'.word dir' va = lookup s.word dir va) ∧ dir' (n / 1024) = some f ∧ 0 < f ∧
        pte' = pageSize * f + 4 * (n % 1024) ∧
        pteEnd' + 4 = pageSize * f + 4 * (n % 1024 / 512 * 512) := by
    obtain ⟨heq, hget, rfl⟩ | ⟨hne, rfl, rfl, rfl, rfl⟩ := fetchEntry_cases hfetch
    · obtain ⟨-, hround⟩ | ⟨-, f, -, -, hpte, hend⟩ := hat
      · obtain ⟨dir', own', f, h', hgrows, hlookup, hdir, rfl⟩ :=
          hI.getMapped h (pageSize_mul_lt_kernelVirtualBase hn) hget
        rw [hdiv] at hdir
        have hf := hI.frame h' hdir
        refine ⟨dir', own', f, h', hgrows, hlookup, hdir, hf.1, by rw [hmod], ?_⟩
        rw [hmod, show ptesPerPde = 2 ^ 10 from rfl, addrMinAlign_two_pow (by decide)] <;>
          simp only [pageSize, entrySize] <;> omega
      · omega
    · obtain ⟨heq, -⟩ | ⟨-, f, hdir, hpos, hpte, hend⟩ := hat
      · exact absurd heq hne
      · rw [Nat.add_sub_cancel] at hdir hpte hend
        exact ⟨dir, own, f, h, hI.refl s' table' own, fun _ => rfl, hdir, hpos, hpte, hend⟩
  refine ⟨dir', own', f, h', hgrows, hlookup, hdir, hpte, ?_⟩
  -- A fetch is due exactly when the entry just written is the first of a half of the table.
  by_cases hround : n % 512 = 0
  · refine .inl ⟨?_, hround⟩
    simp only [entrySize, pageSize] at hpte hend ⊢
    omega
  · refine .inr ⟨hround, f, ?_, hpos, ?_, ?_⟩
    · rwa [show (n - 1) / 1024 = n / 1024 by omega]
    · rw [hpte, entrySize]
      omega
    · rw [hend]
      omega

/-- `pgt_map_stack_memory` from the end of user memory. -/
theorem Maps.pgtMapStackMemory (hpages : ∀ p ∈ list, pages p) (hlen : list.length ≤ 2 ^ 19)
    (h : I s table dir own)
    (hmap : pgtMapStackMemory table list kernelVirtualBase s = (ret, table', s')) :
    ∃ dir' own', I s' table' dir' own' ∧ G s s' table table' own own' ∧
      (ret = 0 →
        (∀ j p, list[j]? = some p → lookup s'.word dir' (pageSize * (2 ^ 19 - 1 - j)) = some p) ∧
        ∀ va, (∀ j < list.length, va / pageSize ≠ 2 ^ 19 - 1 - j) →
          lookup s'.word dir' va = lookup s.word dir va) := by
  rw [Pgt.pgtMapStackMemory, if_neg (by decide)] at hmap
  have hloop := mapStackLoop_eq kernelVirtualBase list 0 0 0 table s
  rw [Nat.mul_zero, Nat.sub_zero, hmap] at hloop
  obtain ⟨dir', own', hready, hgrows, hlookup⟩ := hI.mapPages (fun j => 2 ^ 19 - 1 - j)
    (fun dir j => StackAt dir (2 ^ 19 - j)) hI.stackFetch hpages
    ((Nat.zero_add _).trans_le hlen) h (.inl ⟨rfl, by decide⟩) hloop.symm
  simp only [Nat.zero_add] at hlookup
  refine ⟨dir', own', hready, hgrows, fun hret => ⟨fun j p hj => ?_, fun va hva => ?_⟩⟩
  · obtain ⟨hlt, -⟩ := List.getElem?_eq_some_iff.mp hj
    rw [hlookup hret, (page_entries _).2.2,
      placed_eq_some (fun j => 2 ^ 19 - 1 - j) hj fun i _ _ => by omega, some_or]
  · rw [hlookup hret, placed_eq_none _ hva, none_or]

end

/-- What `pgt_map_mmap_page` does: it gets no page for the table it needs, or it writes the entry
in a new table, or in the table that is there. -/
theorem Directory.pgtMapMmapPage_cases (h : Directory s.word table.pdeBase dir own)
    (hva : va < kernelVirtualBase) (hmap : pgtMapMmapPage table page va s = (ret, table', s')) :
    (dir (va / pdeMapSize) = none ∧ pgtMapNewPdeEntry table.mmapList table.pdeBase va s = none ∧
        ret = -enomem ∧ table' = table ∧ s' = s) ∨
      (∃ f clist s₁, dir (va / pdeMapSize) = none ∧
        pgtMapNewPdeEntry table.mmapList table.pdeBase va s = some (f, clist, s₁) ∧
        table' = { table with mmapList := clist } ∧
        s' = mapEntry s₁ (pageSize * f + 4 * (va % pdeMapSize / pageSize)) page va) ∨
      ∃ f, dir (va / pdeMapSize) = some f ∧ table' = table ∧
        s' = mapEntry s (pageSize * f + 4 * (va % pdeMapSize / pageSize)) page va := by
  unfold pgtMapMmapPage at hmap
  simp only [h.pde_eq hva, pgtGetPteEntryAddr_eq] at hmap
  cases hdir : dir (va / pdeMapSize) with
  | none =>
    simp only [hdir, elim_none, if_true] at hmap
    cases hnew : pgtMapNewPdeEntry table.mmapList table.pdeBase va s with
    | none =>
      simp only [hnew, map_none] at hmap
      cases hmap
      exact .inl ⟨rfl, rfl, rfl, rfl, rfl⟩
    | some res =>
      obtain ⟨f, clist, s₁⟩ := res
      simp only [hnew, map_some] at hmap
      cases hmap
      exact .inr (.inl ⟨f, clist, s₁, rfl, rfl, rfl, rfl⟩)
  | some f =>
    simp only [hdir, elim_some, if_neg (h.table_ne_zero hdir)] at hmap
    cases hmap
    exact .inr (.inr ⟨f, rfl, rfl, rfl⟩)

/-- `pgt_map_mmap_page` maps its page and changes no other translation. -/
theorem pgtMapMmapPage_spec (pages : ℕ → Prop) (hpage : pages page) (hva : va < kernelVirtualBase)
    (h : Ready s table dir own) (hmap : pgtMapMmapPage table page va s = (0, table', s')) :
    ∃ dir' own', Ready s' table' dir' own' ∧ Grows pages s s' table table' own own' ∧
      ∀ va', lookup s'.word dir' va' =
        if va' / pageSize = va / pageSize then some page else lookup s.word dir va' := by
  obtain ⟨-, -, hret, -⟩ | ⟨f, clist, s₁, hdir, hnew, rfl, rfl⟩ | ⟨f, hdir, rfl, rfl⟩ :=
    h.directory.pgtMapMmapPage_cases hva hmap
  · exact absurd hret (by decide)
  · obtain ⟨hready₁, hgrows₁, hlookup₁⟩ := h.grow pages { table with mmapList := clist } hva hdir
      h.mmapFree hnew rfl rfl fun hfree => ⟨h.taskFree, hfree⟩
    obtain ⟨hready₂, hgrows₂, hlookup₂⟩ :=
      hready₁.mapEntry va (Function.update_self _ _ _) hpage va rfl
    refine ⟨_, _, hready₂, hgrows₁.trans hgrows₂, fun va' => ?_⟩
    rw [hlookup₂, hlookup₁]
  · obtain ⟨hready, hgrows, hlookup⟩ := h.mapEntry va hdir hpage va rfl
    exact ⟨dir, own, hready, hgrows, hlookup⟩

end Chunos.Pgt
