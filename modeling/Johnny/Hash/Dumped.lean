import Johnny.Hash.CmphNew
import Johnny.Library.Reading

namespace Johnny
namespace Hash

open Library

/-!
# Functions in files

`cmph_dump` writes a function to a file, the name of its algorithm and its size
first, then its packed parts, each with its length before it.  `cmph_load` reads
it back.  Numbers are written as they lie in memory, on the target the lowest
byte first.

The results of `fread` are not looked at, so a file that ends too early leaves
fields without a value; this is `none` here.  The inner `none` of `cmph_load`
stands for `NULL`.
-/

def CmphAlgo.name : CmphAlgo -> Bytes
  | .bmz => ascii "bmz"
  | .bmz8 => ascii "bmz8"
  | .chm => ascii "chm"
  | .brz => ascii "brz"
  | .fch => ascii "fch"
  | .bdz => ascii "bdz"
  | .bdzPh => ascii "bdz_ph"
  | .chdPh => ascii "chd_ph"
  | .chd => ascii "chd"

/-- The algorithms in the order of their numbers, as in `cmph_names`. -/
def cmphAlgos : List CmphAlgo :=
  [.bmz, .bmz8, .chm, .brz, .fch, .bdz, .bdzPh, .chdPh, .chd]

/-- The data of a function; the other algorithms are left out. -/
inductive CmphData
  | chdPh (mphf : ChdPhMphf)
  | chd (mphf : ChdMphf)

def CmphData.algo : CmphData -> CmphAlgo
  | .chdPh _ => .chdPh
  | .chd _ => .chd

/-- `cmph_t`, whose algorithm is that of its data. -/
structure CmphT where
  size : BitVec 32
  data : CmphData

def CmphT.algo (mphf : CmphT) : CmphAlgo := mphf.data.algo

/-- `fwrite` of the first bytes of a table. -/
def fwriteTable (table : BitsTable) (size : Nat) : Option Bytes :=
  if size ≤ (tableBytes table).length then some ((tableBytes table).take size) else none

/-- `__cmph_dump`. -/
def CmphT.dumpHead (mphf : CmphT) : Bytes :=
  mphf.algo.name ++ [0] ++ wordBytes mphf.size

def hashName : Bytes := ascii "jenkins"

/-- `hash_state_dump` with `jenkins_state_dump`. -/
def hashStateDump (seed : BitVec 32) : Bytes :=
  hashName ++ [0] ++ wordBytes seed

/-- `chd_ph_dump` behind the head. -/
def ChdPhMphf.dump (mphf : ChdPhMphf) : Option Bytes := do
  let hl := hashStateDump mphf.seed
  let cs <- mphf.cs.dump
  let buf <- fwriteTable cs mphf.cs.packedSize
  some (wordBytes (BitVec.ofNat 32 hl.length) ++ hl ++
    wordBytes (BitVec.ofNat 32 mphf.cs.packedSize) ++ buf ++
    wordBytes (BitVec.ofNat 32 mphf.n) ++ wordBytes (BitVec.ofNat 32 mphf.nbuckets))

/-- `chd_dump` behind the head. -/
def ChdMphf.dump (chd : ChdMphf) : Option Bytes := do
  let packedChdPhf <- fwriteTable chd.packedChdPhf chd.packedChdPhfSize
  let packedCr <- fwriteTable chd.packedCr chd.packedCrSize
  some (wordBytes (BitVec.ofNat 32 chd.packedChdPhfSize) ++ packedChdPhf ++
    wordBytes (BitVec.ofNat 32 chd.packedCrSize) ++ packedCr)

def cmphDump (mphf : CmphT) : Option Bytes := do
  let parts <- match mphf.data with
    | .chdPh mphf => mphf.dump
    | .chd mphf => mphf.dump
  some (mphf.dumpHead ++ parts)

/-- `fread` of a number. -/
def freadWord : StateT Bytes Option (BitVec 32) := do
  let bytes <- readSymbols 4
  pure (bytesWord bytes)

/-- `fread` of a table. -/
def freadTable (size : Nat) : StateT Bytes Option BitsTable := do
  let bytes <- readSymbols size
  pure (bytesTable bytes)

/-- `BUFSIZ` of the C library. -/
def bufsiz : Nat := 8192

/-- The loop of `__cmph_load` over the names. -/
def algoOfName (algoName : Bytes) : Option CmphAlgo :=
  cmphAlgos.foldl (fun algo i => if algoName = i.name then some i else algo) none

/-- `__cmph_load`, which reads the name one character at a time.  A name that
does not fit into the buffer is written behind it. -/
def cmphLoadHead : StateT Bytes Option (Option (CmphAlgo × BitVec 32)) := fun file =>
  match splitAtFirst [0] file with
  | none => if file.length ≤ bufsiz then some (none, []) else none
  | some (algoName, rest) =>
      if algoName.length < bufsiz then
        match algoOfName algoName with
        | none => some (none, rest)
        | some algo => (freadWord rest).map (fun found => (some (algo, found.1), found.2))
      else none

/-- `hash_state_load` with `jenkins_state_load`; there is no search without a
hash state. -/
def hashStateLoad (buf : Bytes) : Option (BitVec 32) := do
  let (hashfunc, state) <- splitAtFirst [0] buf
  if hashfunc = hashName ∧ 4 ≤ state.length then some (bytesWord (state.take 4)) else none

def chdPhLoad : StateT Bytes Option ChdPhMphf := do
  let hashBuflen <- freadWord
  let hashBuf <- readSymbols hashBuflen.toNat
  let seed <- StateT.lift (hashStateLoad hashBuf)
  let buflen <- freadWord
  let buf <- freadTable buflen.toNat
  let cs <- StateT.lift (CompressedSeq.load buf)
  let n <- freadWord
  let nbuckets <- freadWord
  pure ⟨cs, nbuckets.toNat, n.toNat, seed⟩

def chdLoad : StateT Bytes Option ChdMphf := do
  let packedChdPhfSize <- freadWord
  let packedChdPhf <- freadTable packedChdPhfSize.toNat
  let packedCrSize <- freadWord
  let packedCr <- freadTable packedCrSize.toNat
  pure ⟨packedChdPhf, packedChdPhfSize.toNat, packedCr, packedCrSize.toNat⟩

/-- The other algorithms are left out. -/
def cmphLoad : StateT Bytes Option (Option CmphT) := do
  let head <- cmphLoadHead
  match head with
  | none => pure none
  | some (.chdPh, size) => do
      let mphf <- chdPhLoad
      pure (some ⟨size, .chdPh mphf⟩)
  | some (.chd, size) => do
      let chd <- chdLoad
      pure (some ⟨size, .chd chd⟩)
  | some _ => StateT.lift none

/-! ## What was dumped is loaded -/

theorem reads_word (word : BitVec 32) : Reads freadWord (wordBytes word) word := by
  have reads := (reads_symbols (wordBytes_length word)).map bytesWord
  rw [bytesWord_wordBytes] at reads
  exact reads

theorem reads_table {table : BitsTable} {size : Nat} (whole : size = 4 * table.length) :
    Reads (freadTable size) (tableBytes table) table := by
  have reads := (reads_symbols ((tableBytes_length table).trans whole.symm)).map bytesTable
  rw [bytesTable_tableBytes] at reads
  exact reads

theorem fwriteTable_eq {table : BitsTable} {size : Nat} (whole : size = 4 * table.length) :
    fwriteTable table size = some (tableBytes table) := by
  unfold fwriteTable
  rw [tableBytes_length, whole, if_pos (Nat.le_refl _),
    List.take_of_length_le (Nat.le_of_eq (tableBytes_length _))]

theorem algoOfName_name (algo : CmphAlgo) : algoOfName algo.name = some algo := by
  cases algo <;> decide

theorem name_proper (algo : CmphAlgo) : 0 ∉ algo.name ∧ algo.name.length < bufsiz := by
  cases algo <;> decide

theorem splitAtFirst_terminated {text : Bytes} (noNul : 0 ∉ text) (rest : Bytes) :
    splitAtFirst [0] (text ++ [0] ++ rest) = some (text, rest) := by
  rw [List.append_assoc, splitAtFirst_append noNul, splitAtFirst_prefix _ _ (by simp)]
  simp

theorem reads_head (mphf : CmphT) :
    Reads cmphLoadHead mphf.dumpHead (some (mphf.algo, mphf.size)) := by
  intro rest
  rcases name_proper mphf.algo with ⟨noNul, fits⟩
  unfold CmphT.dumpHead cmphLoadHead
  rw [List.append_assoc, splitAtFirst_terminated noNul]
  dsimp only
  rw [if_pos fits, algoOfName_name]
  dsimp only
  rw [reads_word mphf.size rest]
  rfl

theorem hashStateLoad_dump (seed : BitVec 32) : hashStateLoad (hashStateDump seed) = some seed := by
  have noNul : 0 ∉ hashName := by decide
  unfold hashStateLoad hashStateDump
  rw [splitAtFirst_terminated noNul, Option.bind_eq_bind, Option.bind_some]
  dsimp only
  rw [if_pos ⟨rfl, Nat.le_refl _⟩, List.take_of_length_le (Nat.le_of_eq (wordBytes_length seed)),
    bytesWord_wordBytes]

/-- What is dumped is read back. -/
def LoadsAgain {A : Type} (load : StateT Bytes Option A) (dump : Option Bytes) (value : A) : Prop :=
  Exists fun dumped => dump = some dumped ∧ Reads load dumped value

theorem ChdPhMphf.Proper.loadsAgain {mphf : ChdPhMphf} (proper : mphf.Proper) :
    LoadsAgain chdPhLoad mphf.dump mphf := by
  have csSize := proper.cs.packedSize
  have csSmall := proper.cs.words_small
  have size := toNat_ofNat_of_lt (by omega : mphf.cs.packedSize < 2 ^ 32)
  have n := toNat_ofNat_of_lt proper.n_lt
  have nbuckets := toNat_ofNat_of_lt proper.nbuckets_lt
  have cs := proper.cs.load []
  rw [List.append_nil] at cs
  have hl : (hashStateDump mphf.seed).length =
    (BitVec.ofNat 32 (hashStateDump mphf.seed).length).toNat := rfl
  have last := (reads_word (BitVec.ofNat 32 mphf.nbuckets)).map
    (fun nbuckets => (⟨mphf.cs, nbuckets.toNat, (BitVec.ofNat 32 mphf.n).toNat, mphf.seed⟩ :
      ChdPhMphf))
  rw [n, nbuckets] at last
  refine ⟨wordBytes (BitVec.ofNat 32 (hashStateDump mphf.seed).length) ++
    (hashStateDump mphf.seed ++ ([] ++
    (wordBytes (BitVec.ofNat 32 mphf.cs.packedSize) ++ (tableBytes mphf.cs.words ++ ([] ++
      (wordBytes (BitVec.ofNat 32 mphf.n) ++ wordBytes (BitVec.ofNat 32 mphf.nbuckets))))))), ?_,
        ?_⟩
  · simp only [ChdPhMphf.dump, proper.cs.dump, fwriteTable_eq csSize, Option.bind_eq_bind,
      Option.bind_some, List.append_assoc, List.nil_append]
  · refine (reads_word _).bind
      ((reads_symbols hl).bind ((Reads.lift (hashStateLoad_dump mphf.seed)).bind
      ((reads_word _).bind ((reads_table (by rw [size, csSize])).bind ((Reads.lift cs).bind
        ((reads_word _).bind ?_))))))
    rw [n]
    exact last

theorem ChdMphf.Sized.loadsAgain {chd : ChdMphf} (sized : chd.Sized) :
    LoadsAgain chdLoad chd.dump chd := by
  have phSize := toNat_ofNat_of_lt sized.packedChdPhf_lt
  have crSize := toNat_ofNat_of_lt sized.packedCr_lt
  have last := (reads_table (crSize.trans sized.packedCr)).map
    (fun packedCr => (⟨chd.packedChdPhf, (BitVec.ofNat 32 chd.packedChdPhfSize).toNat, packedCr,
      (BitVec.ofNat 32 chd.packedCrSize).toNat⟩ : ChdMphf))
  refine ⟨wordBytes (BitVec.ofNat 32 chd.packedChdPhfSize) ++ (tableBytes chd.packedChdPhf ++
    (wordBytes (BitVec.ofNat 32 chd.packedCrSize) ++ tableBytes chd.packedCr)), ?_, ?_⟩
  · simp only [ChdMphf.dump, fwriteTable_eq sized.packedChdPhf, fwriteTable_eq sized.packedCr,
      Option.bind_eq_bind, Option.bind_some, List.append_assoc]
  · rw [phSize, crSize] at last
    refine (reads_word _).bind
      ((reads_table (phSize.trans sized.packedChdPhf)).bind ((reads_word _).bind ?_))
    rw [phSize, crSize]
    exact last

/-- What `cmph_load` relies on. -/
def CmphT.Proper (mphf : CmphT) : Prop :=
  match mphf.data with
  | .chdPh mphf => mphf.Proper
  | .chd chd => chd.Sized

theorem CmphT.Proper.loadsAgain {mphf : CmphT} (proper : mphf.Proper) :
    LoadsAgain cmphLoad (cmphDump mphf) (some mphf) := by
  have head := reads_head mphf
  rcases mphf with ⟨size, data⟩
  cases data with
  | chdPh mphf =>
      rcases ChdPhMphf.Proper.loadsAgain proper with ⟨parts, dumps, reads⟩
      refine ⟨CmphT.dumpHead ⟨size, .chdPh mphf⟩ ++ parts, ?_, ?_⟩
      · simp only [cmphDump, dumps, Option.bind_eq_bind, Option.bind_some]
      · exact head.bind (reads.map (fun mphf => some (⟨size, .chdPh mphf⟩ : CmphT)))
  | chd chd =>
      rcases ChdMphf.Sized.loadsAgain proper with ⟨parts, dumps, reads⟩
      refine ⟨CmphT.dumpHead ⟨size, .chd chd⟩ ++ parts, ?_, ?_⟩
      · simp only [cmphDump, dumps, Option.bind_eq_bind, Option.bind_some]
      · exact head.bind (reads.map (fun chd => some (⟨size, .chd chd⟩ : CmphT)))

/-- The functions of one file. -/
theorem loadsAll {functions : List CmphT} (proper : forall mphf, mphf ∈ functions -> mphf.Proper) :
    Exists fun dumps => functions.mapM cmphDump = some dumps ∧
      readAll cmphLoad dumps.flatten = some (functions.map some) := by
  let written := fun mphf : CmphT => (cmphDump mphf).getD []
  have each : forall mphf, mphf ∈ functions -> cmphDump mphf = some (written mphf) ∧
      Reads cmphLoad (written mphf) (some mphf) := by
    intro mphf member
    rcases (proper mphf member).loadsAgain with ⟨dumped, dumps, reads⟩
    have same : written mphf = dumped := by
      simp only [written, dumps, Option.getD_some]
    rw [same]
    exact ⟨dumps, reads⟩
  refine ⟨functions.map written, ?_, ?_⟩
  · exact mapM_eq_some (fun mphf member => (each mphf member).1)
  · rw [← List.flatMap_def]
    refine Reads.readAll (fun mphf member => (each mphf member).2) ?_
    intro mphf member empty
    -- At the end of a file there is no function.
    have reads := (each mphf member).2 []
    have nothing : cmphLoad ([] ++ []) = some (none, []) := rfl
    rw [empty, nothing] at reads
    cases reads

/-- What `cmph_new` returns for some keys, with the algorithm for minimal hashes
or the one for hashes into bins. -/
inductive Built (draws : SeedDraws) (keys : List Bytes) : CmphT -> Prop
  | chd {chd : ChdMphf} (made : Tables.cmphNew draws keys = some (some chd)) :
      Built draws keys ⟨BitVec.ofNat 32 keys.length, .chd chd⟩
  | chdPh {chdPhf : ChdPhMphf} {occupTable : BitsTable}
      (made : Tables.chdPhNew draws keys = some (some (chdPhf, occupTable))) :
      Built draws keys ⟨BitVec.ofNat 32 chdPhf.n, .chdPh chdPhf⟩

theorem Built.proper {draws : SeedDraws} {keys : List Bytes} {mphf : CmphT}
    (built : Built draws keys mphf)
    (nonempty : keys ≠ []) (few : keys.length < 2 ^ 28) : mphf.Proper := by
  cases built with
  | chd made =>
      rcases cmphNew_cases draws nonempty few with ⟨fails, -⟩ | ⟨chd, ph, tables, -, computes⟩
      · rw [fails] at made
        cases made
      · rw [tables] at made
        cases made
        exact computes.sized
  | chdPh made =>
      rcases chdPhNew_refines draws nonempty few with
        ⟨fails, -⟩ | ⟨chdPhf, occupTable, mphf, tables, -, proper, -⟩
      · rw [fails] at made
        cases made
      · rw [tables] at made
        cases made
        exact proper

/-- Any number of functions, built for any keys with any seeds and dumped into
one file one after the other, are loaded from it again, each with its size and
its data, and nothing else. -/
theorem cmphLoad_dumps (built : List (SeedDraws × List Bytes × CmphT))
    (makes : forall draws keys mphf, (draws, keys, mphf) ∈ built ->
      keys ≠ [] ∧ keys.length < 2 ^ 28 ∧ Built draws keys mphf) :
    Exists fun dumps => (built.map (fun entry => entry.2.2)).mapM cmphDump = some dumps ∧
      readAll cmphLoad dumps.flatten = some (built.map (fun entry => some entry.2.2)) := by
  rcases @loadsAll (built.map (fun entry => entry.2.2)) (by
    intro mphf member
    rcases List.mem_map.mp member with ⟨⟨draws, keys, own⟩, inBuilt, rfl⟩
    rcases makes draws keys own inBuilt with ⟨nonempty, few, made⟩
    exact made.proper nonempty few) with ⟨dumps, dumped, loads⟩
  refine ⟨dumps, dumped, ?_⟩
  rw [loads, List.map_map]
  rfl

theorem cmphLoad_dumps_twoPages : Exists fun chd => Exists fun dumps =>
    Tables.cmphNew inOrderDraws [ascii "a.html", ascii "b.html"] = some (some chd) ∧
      [⟨2#32, .chd chd⟩].mapM cmphDump = some dumps ∧
      readAll cmphLoad dumps.flatten = some [some ⟨2#32, .chd chd⟩] := by
  rcases cmphNew_cases inOrderDraws (List.cons_ne_nil (ascii "a.html") [ascii "b.html"])
    (by decide) with
    ⟨fails, -⟩ | ⟨chd, ph, made, -⟩
  · have found : ((Tables.cmphNew inOrderDraws [ascii "a.html", ascii "b.html"]).bind id).isSome =
        true := by
      decide +kernel
    rw [fails] at found
    cases found
  · rcases cmphLoad_dumps [(inOrderDraws, [ascii "a.html", ascii "b.html"], ⟨2#32, .chd chd⟩)] (by
      intro draws keys mphf member
      cases List.mem_singleton.mp member
      exact ⟨List.cons_ne_nil _ _, by decide, Built.chd made⟩) with ⟨dumps, dumped, loads⟩
    exact ⟨chd, dumps, made, dumped, loads⟩

end Hash
end Johnny
