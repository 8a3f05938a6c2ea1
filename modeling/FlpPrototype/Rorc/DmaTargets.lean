import FlpPrototype.Rorc.BusAddress
import FlpPrototype.Rorc.CrorcAddresses
import FlpPrototype.Rorc.CruDmaChannel
/-!
# DmaTargets — what the cards are told to write

The CRU writes the pages of a descriptor one behind the other, the C-RORC each page it is given.  Both start at the
translated offset of a superpage, and the rest is the superpage's own memory if it is contiguous on the bus, which
`DmaChannelInterface::pushSuperpage` asks of the caller.
-/
namespace Flp
namespace Rorc

/-- What the CRU is told to write for a superpage is the superpage's own memory. -/
def CruTransfers (cfg : Config) (superpage : Superpage) : Prop :=
  ∀ s s' : Cru.CruChannel, s.pushSuperpage cfg superpage = (none, s') →
    ∃ d, s'.descriptors = s.descriptors ++ [d] ∧ ∀ k < d.pages * Cru.DMA_PAGE_SIZE,
      OwnByte cfg.scatterGatherList superpage k (wrap64 (d.busAddress + k))

/-- What the C-RORC is told to write for a superpage, in any run, is the superpage's own memory. -/
def CrorcTransfers (cfg : Config) (superpage : Superpage) : Prop :=
  ∀ (s : Channel) (as : List Action) (t : Traced), run (Traced.step cfg) (Traced.start s) as = some t →
    ∀ page ∈ t.given, t.accepted[page.serial]? = some superpage → ∀ k < cfg.pageSize,
      OwnByte cfg.scatterGatherList superpage (cfg.pageSize * page.number + k) (wrap64 (page.address + k))

/-- What the CRU is told. -/
theorem cru_descriptor {cfg : Config} {s s' : Cru.CruChannel} {superpage : Superpage}
    (h : s.pushSuperpage cfg superpage = (none, s')) :
    ∃ link busAddress, Channel.checkSuperpage cfg superpage = .ok () ∧
      getBusOffsetAddress cfg.scatterGatherList superpage.offset = some busAddress ∧
      s'.descriptors = s.descriptors ++ [⟨link, Cru.wrap32 (superpage.size / Cru.DMA_PAGE_SIZE), busAddress⟩] := by
  rw [Cru.CruChannel.pushSuperpage] at h
  cases hcheck : Channel.checkSuperpage cfg superpage with
  | error e =>
    rw [hcheck] at h
    cases h
  | ok _ =>
    simp only [hcheck] at h
    split_ifs at h with havailable
    · cases h
    · cases hlink : s.mLinks[s.getNextLinkIndex]? with
      | none =>
        simp only [hlink] at h
        cases h
      | some link =>
        simp only [hlink] at h
        split_ifs at h with hfull
        · cases h
        · cases hbus : getBusOffsetAddress cfg.scatterGatherList superpage.offset with
          | none =>
            simp only [hbus] at h
            cases h
          | some busAddress =>
            simp only [hbus] at h
            obtain ⟨-, rfl⟩ := Prod.mk.inj h
            exact ⟨link.id, busAddress, rfl, rfl, rfl⟩

theorem wrap64_add (n k : Nat) : wrap64 (wrap64 n + k) = wrap64 (n + k) := by
  rw [wrap64, wrap64, wrap64, Nat.mod_add_mod]

/-- **Both cards write into the superpage's own memory**, if it is contiguous on the bus. -/
theorem transfers_own_memory (cfg : Config) (h : Registered cfg) (superpage : Superpage)
    (hsum : superpage.offset + superpage.size < 2 ^ 64) (hseamless : Seamless cfg.scatterGatherList superpage) :
    CruTransfers cfg superpage ∧ CrorcTransfers cfg superpage := by
  constructor
  · intro s s' hpush
    obtain ⟨link, busAddress, hcheck, hbus, hdescriptors⟩ := cru_descriptor hpush
    refine ⟨_, hdescriptors, fun k hk => ?_⟩
    have hpages : Cru.wrap32 (superpage.size / Cru.DMA_PAGE_SIZE) * Cru.DMA_PAGE_SIZE ≤ superpage.size :=
      (Nat.mul_le_mul_right _ (Nat.mod_le _ _)).trans (Nat.div_mul_le_self _ _)
    exact ownByte h (checkSuperpage_inside hcheck hsum) hbus hseamless (Nat.lt_of_lt_of_le hk hpages)
  · intro s as t hr page hpage haccept k hk
    obtain ⟨sp, haccept', hof⟩ := Traced.given_inside s as hr page hpage
    obtain rfl := Option.some.inj (haccept'.symm.trans haccept)
    obtain ⟨busAddress, hbus, haddress⟩ := hof.address
    have hinside := hof.inside
    rw [haddress, wrap64_add, Nat.add_assoc]
    exact ownByte h (checkSuperpage_inside hof.checked hsum) hbus hseamless (by omega)

/-- Two hugepages next to each other on the bus, and one somewhere else. -/
def threeParts : Config :=
  ⟨8192, 3 * 2 ^ 19, [⟨2 ^ 19, 2 ^ 20, 0⟩, ⟨2 ^ 19, 3 * 2 ^ 19, 2 ^ 19⟩, ⟨2 ^ 19, 2 ^ 21, 2 ^ 30⟩], {}⟩

theorem threeParts_registered : Registered threeParts where
  user := ⟨2 ^ 20, by simp [UserContiguous, threeParts], by decide⟩
  bus := by decide
  apart := by
    simp only [threeParts, List.pairwise_cons, List.mem_cons, List.not_mem_nil, or_false, forall_eq_or_imp, forall_eq,
      Apart]
    refine ⟨⟨?_, ?_⟩, ?_, ?_⟩
    · intro a
      omega
    · intro a
      omega
    · intro a
      omega
    · exact ⟨fun _ h => h.elim, List.Pairwise.nil⟩
  covers := by decide

theorem transfers_own_memory_threeParts :
    CruTransfers threeParts ⟨0, 2 ^ 20, 0, 0, false⟩ ∧ CrorcTransfers threeParts ⟨0, 2 ^ 20, 0, 0, false⟩ :=
  transfers_own_memory threeParts threeParts_registered ⟨0, 2 ^ 20, 0, 0, false⟩ (by decide)
    ⟨fun _ _ => rfl, fun _ h => absurd h (by decide), trivial⟩

/-- The second and the third part. -/
def straddling : Superpage := ⟨2 ^ 19, 2 ^ 20, 7, 0, false⟩

def oneLink : Cru.CruChannel := ⟨[⟨0, 0, [], []⟩], 32, [], [], 0⟩

theorem straddling_descriptor : (oneLink.pushSuperpage threeParts straddling).1 = none ∧
    (oneLink.pushSuperpage threeParts straddling).2.descriptors = [⟨0, 128, 2 ^ 19⟩] := by
  decide +kernel

theorem straddling_page : (run (Traced.step threeParts) (Traced.start CrorcSession.powerOn)
    [.push straddling, CrorcSession.fill 0]).map (fun t => (t.given[64]?, t.accepted)) =
      some (some ⟨0, 64, 64, 2 ^ 20⟩, [straddling]) := by
  decide +kernel

theorem straddling_not_own : ¬OwnByte threeParts.scatterGatherList straddling (2 ^ 19) (2 ^ 20) :=
  fun h => absurd h.1 (by decide)

/-- **A superpage across two parts** is accepted by both cards, and both are told to write behind the part it begins
in. -/
theorem straddling_transfers_elsewhere : Registered threeParts ∧ ¬CruTransfers threeParts straddling ∧
    ¬CrorcTransfers threeParts straddling := by
  refine ⟨threeParts_registered, fun hcru => ?_, fun hcrorc => ?_⟩
  · obtain ⟨hok, hd⟩ := straddling_descriptor
    obtain ⟨d, hdescriptors, hown⟩ := hcru oneLink (oneLink.pushSuperpage threeParts straddling).2 (Prod.ext hok rfl)
    rw [hd] at hdescriptors
    obtain rfl := List.singleton_inj.1 hdescriptors
    exact straddling_not_own (hown (2 ^ 19) (by decide))
  · have hpage := straddling_page
    cases hr : run (Traced.step threeParts) (Traced.start CrorcSession.powerOn)
        [.push straddling, CrorcSession.fill 0] with
    | none =>
      rw [hr] at hpage
      cases hpage
    | some t =>
      rw [hr, Option.map_some] at hpage
      obtain ⟨hgiven, haccepted⟩ := Prod.mk.inj (Option.some.inj hpage)
      exact straddling_not_own (hcrorc CrorcSession.powerOn _ t hr ⟨0, 64, 64, 2 ^ 20⟩ (List.mem_of_getElem? hgiven)
        (by rw [haccepted]; rfl) 0 (by decide))

end Rorc
end Flp
