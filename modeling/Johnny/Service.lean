import Johnny.Hash.CmphNew
import Johnny.Setup.Delimiting
import Johnny.Setup.Files
import Johnny.Worker.Answers

namespace Johnny

open Library
open Hash
open Setup
open Worker

/-!
# Serving a directory

The setup and a worker put together.  `johnny_setup_files` reads a directory into
the table and builds the hash in tables and words; a worker answers requests with
both.  A client whose requests are handled one after the other reads, by the
lengths in the headers, the contents of the files it asked for, in the order in
which it asked.
-/

/-- What a client should read for a name: the contents of the file with that
key, and nothing if there is none. -/
inductive Asks (disk : Disk) (rootDirectory : Bytes) (files : List FilePath) (name : Bytes) :
    Bytes -> Prop
  | file {file : FilePath} {contents : Bytes} (member : file ∈ files)
      (key : fileKey file.relative = some name)
      (readable : Readable (disk.access (file.full (rootDirectory ++ [47]))) contents) :
      Asks disk rootDirectory files name contents
  | missing (absent : forall file, file ∈ files -> fileKey file.relative ≠ some name) :
      Asks disk rootDirectory files name []

/-- Each client of a worker whose events are orderly and whose names lead into
the table reads what it asked for from the bytes that were sent and those that
are left to send. -/
def ServesClients (globals : Globals) (disk : Disk) (rootDirectory : Bytes) (files : List FilePath)
    (state : WorkerState) : Prop :=
  forall ctx, ctx ∈ state.live -> forall turn requests, Orderly globals state ctx turn requests ->
    (forall request, request ∈ requests -> johnnyFileIndex globals request.name < files.length) ->
    Exists fun bodies =>
      List.Forall₂ (fun request body =>
        Asks disk rootDirectory files (Request.name request) body) requests bodies ∧
      readAll readsResponse (sentBytes (state.callsThrough globals ctx turn) ++
        (state.processes globals ctx turn).2.unsent) = some bodies

theorem responseTo_of_selects {globals : Globals} {name response : Bytes} {length : Nat}
    (selects : johnnySelectsResponse globals name = (⟨response, 0⟩, length))
    (whole : length = response.length) : responseTo globals name = response := by
  unfold responseTo ResponsePointer.read
  rw [selects, whole]
  exact List.take_length

section

variable {disk : Disk} {rootDirectory : Bytes} {files : List FilePath} {served : List ServedFile}
  (servable : Servable disk rootDirectory files served) {globals : Globals}
  (lookup : ExactLookup globals served)

include servable lookup

/-- From the answer to a name a client reads what the name asks for. -/
theorem reads_answer {name : Bytes} (noNul : 0 ∉ name)
    (inside : johnnyFileIndex globals name < files.length) :
    Exists fun body => Asks disk rootDirectory files name body ∧
      forall rest, readsResponse (responseTo globals name ++ rest) = some (body, rest) := by
  by_cases known : Exists fun own => own ∈ served ∧ own.key = name
  · rcases known with ⟨own, member, rfl⟩
    rcases exists_partner servable.flip member with ⟨file, inFiles, loads⟩
    rcases loads.response with ⟨contents, readable, response⟩
    have answer := responseTo_of_selects (lookup.found own member) loads.responseLength
    refine ⟨contents, .file inFiles loads.key readable, fun rest => ?_⟩
    rw [answer, response]
    exact readsResponse_responseHeader file.relative contents rest
  · have absent : forall own, own ∈ served -> own.key ≠ name :=
      fun own member same => known ⟨own, member, same⟩
    have bound : johnnyFileIndex globals name < served.length := by
      rw [← servable.length_eq]
      exact inside
    have answer := responseTo_of_selects (lookup.missing name noNul bound absent) rfl
    refine ⟨[], .missing ?_, fun rest => ?_⟩
    · intro file member key
      rcases exists_partner servable member with ⟨own, inServed, loads⟩
      rw [loads.key] at key
      exact absent own inServed (Option.some.inj key)
    · rw [answer]
      exact readsResponse_http404 rest

/-- A client reads the answers one after the other. -/
theorem readAll_answers (requests : List Request)
    (inside : forall request, request ∈ requests ->
      johnnyFileIndex globals request.name < files.length) :
    Exists fun bodies =>
      List.Forall₂ (fun request body =>
        Asks disk rootDirectory files (Request.name request) body) requests bodies ∧
      readAll readsResponse (answers globals requests) = some bodies := by
  let body := fun request : Request =>
    ((readsResponse (responseTo globals request.name)).map Prod.fst).getD []
  have each : forall request, request ∈ requests ->
    Asks disk rootDirectory files request.name (body request) ∧
      forall rest, readsResponse (responseTo globals request.name ++ rest) =
        some (body request, rest) := by
    intro request member
    rcases reads_answer servable lookup request.noNul (inside request member)
      with ⟨own, asks, reads⟩
    have same : body request = own := by
      have alone := reads []
      rw [List.append_nil] at alone
      simp only [body, alone, Option.map_some, Option.getD_some]
    rw [same]
    exact ⟨asks, reads⟩
  refine ⟨requests.map body, ?_, ?_⟩
  · rw [List.forall₂_map_right_iff]
    exact List.forall₂_same.mpr (fun request member => (each request member).1)
  · apply readAll_flatMap _ (fun request member => (each request member).2)
    intro request member empty
    have reads := (each request member).2 []
    rw [empty] at reads
    have nothing : readsResponse ([] ++ []) = none := by decide
    rw [nothing] at reads
    cases reads

/-- Whatever happens on other connections. -/
theorem servesClients_of_lookup {state : WorkerState}
    (reachable : ((worker globals).restrict AllocatesUnused).Reachable WorkerState.zero state) :
    ServesClients globals disk rootDirectory files state := by
  intro ctx live turn requests orderly inside
  rw [orderly.answered reachable live]
  exact readAll_answers servable lookup requests inside

end

/-! ## Setup and worker -/

/-- The setup ends with the function that `cmph_new` built in its tables.  The
table has an entry for each key, and a worker with this table and function serves
the files. -/
theorem johnnySetupFiles_serves (tree : Tree) (rootDirectory : Bytes)
    (counting slurping : Walk tree (rootDirectory ++ [47])) (disk : Disk) (draws : SeedDraws)
    (heap : Heap) (nonempty : tree.files ≠ []) (few : tree.files.length < 2 ^ 28)
    (usable : Usable slurping disk draws.toDraws) :
    Exists fun keys => Exists fun chd => Exists fun ph : ChdPh keys => Exists fun table =>
      Exists fun after =>
      Tables.cmphNew draws keys = some (some chd) ∧
      (forall key, chd.search key = some (chdSearch ph key)) ∧
      johnnySetupFiles counting slurping disk draws.toDraws heap =
        some (.success (some (chdSearch ph)) table after) ∧
      forall behind, Hashed (Globals.ofTable table behind (chdSearch ph) after) ph ∧
        forall state,
          ((worker (Globals.ofTable table behind
            (chdSearch ph) after)).restrict AllocatesUnused).Reachable
            WorkerState.zero state ->
          ServesClients (Globals.ofTable table behind (chdSearch ph) after) disk rootDirectory
            (slurping.found (tree.depth + 1) []) state := by
  rcases usable with ⟨served, servable, small, hash⟩
  have sizes := servable.length_eq
  rw [found_length] at sizes
  have count : (served.map ServedFile.key).length = tree.files.length := by
    rw [List.length_map, sizes]
  have keys : served.map ServedFile.key ≠ [] := by
    intro empty
    rw [empty] at count
    exact nonempty (List.length_eq_zero_iff.mp count.symm)
  rcases cmphNew_cases draws keys (by rw [count]; exact few)
    with ⟨-, absent⟩ | ⟨chd, ph, tables, built, computes⟩
  · rw [absent] at hash
    cases hash
  · have distinct := (cmphNew_eq_some built).1
    rcases johnnySetupFiles_eq counting slurping disk draws.toDraws heap nonempty servable
      small with ⟨entries, after, holds, result⟩
    rcases reorderJohnnyFiles_exact holds distinct (ph.minimalPerfect distinct)
      with ⟨table, reordered, exactly⟩
    have reorders : reorderWithHash (some (chdSearch ph)) after entries = some table := reordered
    refine ⟨served.map ServedFile.key, chd, ph, table, after, tables, computes.search, ?_, ?_⟩
    · rw [result, built, Option.map_some, reorders, Option.map_some]
    · intro behind
      constructor
      · refine hashed_ofTable exactly distinct ?_ behind
        intro file member
        rcases exists_partner servable.flip member with ⟨own, -, loads⟩
        exact loads.responseLength
      · exact fun _ reachable => servesClients_of_lookup servable (exactly.lookup behind) reachable

/-- Two pages with the same contents, on a disk where everything can be read. -/
theorem twoPages_usable :
    Usable twoPagesWalk (uniformDisk (ascii "page")) inOrderDraws.toDraws := by
  have found : twoPagesWalk.found (twoPages.depth + 1) [] =
      [⟨[], ascii "a.html"⟩, ⟨[], ascii "b.html"⟩] := by
    decide +kernel
  refine ⟨[servesContents (ascii "page") (ascii "a.html") (ascii "a.html"),
    servesContents (ascii "page") (ascii "b.html") (ascii "b.html")], ?_, by decide, ?_⟩
  · rw [found]
    exact List.Forall₂.cons (uniformDisk_loadable (by decide +kernel) (by decide)
      (by decide +kernel))
      (List.Forall₂.cons (uniformDisk_loadable (by decide +kernel) (by decide) (by decide +kernel))
        List.Forall₂.nil)
  · rcases cmphNew_cases inOrderDraws (List.cons_ne_nil (ascii "a.html") [ascii "b.html"])
      (by decide) with
      ⟨fails, -⟩ | ⟨chd, ph, -, built, -⟩
    · have some : ((Tables.cmphNew inOrderDraws [ascii "a.html", ascii "b.html"]).bind id).isSome =
          true := by
        decide +kernel
      rw [fails] at some
      cases some
    · exact Option.isSome_iff_exists.mpr ⟨ph, built⟩

end Johnny
