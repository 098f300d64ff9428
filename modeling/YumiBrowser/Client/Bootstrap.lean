import YumiBrowser.Registrar.EpochAdoption
import YumiBrowser.Registrar.FullSync
import YumiBrowser.Registrar.Join

namespace YumiBrowser.Client

open Wire Keyed YumiBrowser.Group

/-- The registrar `yumi_client_join` makes of the blob it fetched: a placeholder that the joiner
owns, and the blob read into it. -/
def joinRegistrar (crypto : Crypto) (ticket : InviteTicket) (identity : Identity)
    (epochKey : EpochKey) (clk : Clock) (regBlob : List Byte) : Except GrError Registrar :=
  grCreate crypto ticket.groupName.val ticket.groupType identity epochKey clk >>= fun reg =>
    grDeserialize crypto reg regBlob

/-- The joiner ends up with the header and the tables of the group. -/
def Bootstraps (crypto : Crypto) (ticket : InviteTicket) (identity : Identity) (epochKey : EpochKey)
    (clk : Clock) (group : Registrar) (mode : SerializeMode) : Prop :=
  ∃ reg, joinRegistrar crypto ticket identity epochKey clk (grSerialize group mode) = .ok reg ∧
    reg.header = group.header ∧ SameTables group reg ∧
    (∀ w, w ∈ reg.webapps.rows ↔ w ∈ group.webapps.rows) ∧
    ∀ v, v ∈ reg.servers.rows ↔ v ∈ group.servers.rows.map (Server.shown mode)

theorem except_bind_ok {x : Except ε α} (f : α → Except ε β) (h : x = .ok a) : x >>= f = f a := by
  rw [h]
  rfl

theorem except_bind_error {x : Except ε α} (f : α → Except ε β) (h : x = .error e) :
    x >>= f = .error e := by
  rw [h]
  rfl

theorem ownerSignKey_grCreate
    (h : grCreate crypto groupName groupType owner epochKey clk = .ok reg) :
    reg.header.ownerSignKey = owner.publicKey := by
  rw [grCreate_cases h]
  rfl

theorem joinRegistrar_foreign {crypto : Crypto} {ticket : InviteTicket} {identity : Identity}
    {epochKey : EpochKey} {clk : Clock} {group : Registrar} (mode : SerializeMode)
    (hverify : crypto.verify group.header.signature group.header.hash
      group.header.signerSignKey = true)
    (howner : group.header.ownerSignKey ≠ identity.publicKey) :
    ∃ e, joinRegistrar crypto ticket identity epochKey clk (grSerialize group mode) = .error e := by
  cases hreg : grCreate crypto ticket.groupName.val ticket.groupType identity epochKey clk with
  | error e => exact ⟨e, except_bind_error _ hreg⟩
  | ok reg =>
    rw [← ownerSignKey_grCreate hreg] at howner
    exact ⟨.unauthorized, (except_bind_ok _ hreg).trans (grDeserialize_foreign mode hverify howner)⟩

/-- No one joins a group of another owner. -/
theorem joining_fails (crypto : Crypto) (ticket : InviteTicket) (identity : Identity)
    (epochKey : EpochKey) (clk : Clock) (group : Registrar) (mode : SerializeMode)
    (hverify : crypto.verify group.header.signature group.header.hash
      group.header.signerSignKey = true)
    (howner : group.header.ownerSignKey ≠ identity.publicKey) :
    ¬ Bootstraps crypto ticket identity epochKey clk group mode := by
  rintro ⟨reg, hreg, _⟩
  obtain ⟨e, he⟩ := joinRegistrar_foreign mode hverify howner
  rw [hreg] at he
  cases he

section Outsider

def pairTicket : InviteTicket where
  groupId := (signedGroup flatHash).header.groupId
  groupName := (signedGroup flatHash).header.groupName
  groupType := groupPrivate
  ownerSignKey := (member 1).publicKey
  registrarHash := (signedGroup flatHash).header.hash
  verificationToken := zeroBytes 128
  inviterSignPk := (member 1).publicKey
  inviterKemPk := (member 1).kemPk
  expiresAt := 0

theorem signedGroup_verified : (onlySigner flatHash (member 1)).verify
    (signedGroup flatHash).header.signature (signedGroup flatHash).header.hash
    (signedGroup flatHash).header.signerSignKey = true := by
  have hkey : (signedGroup flatHash).header.signerSignKey = (member 1).publicKey := rfl
  rw [hkey]
  exact onlySigner_verify

theorem signedGroup_foreign : (signedGroup flatHash).header.ownerSignKey ≠ outsider.publicKey := by
  intro h
  have hbyte : (1 : Byte) = 3 := publicKey_inj.mp h
  exact absurd hbyte (by decide)

theorem joining_fails_outsider : ¬ Bootstraps (onlySigner flatHash (member 1)) pairTicket outsider
    (zeroBytes 128) ⟨5, 5000000⟩ (signedGroup flatHash) .full :=
  joining_fails _ pairTicket outsider _ _ _ .full signedGroup_verified signedGroup_foreign

-- The owner created and signed this group, and invited the outsider.
theorem signedGroup_not_joined : ¬ ∀ (crypto : Crypto) (ticket : InviteTicket) (identity : Identity)
    (epochKey : EpochKey) (clk : Clock) (group : Registrar) (mode : SerializeMode),
    crypto.verify group.header.signature group.header.hash group.header.signerSignKey = true →
    group.header.ownerSignKey ≠ identity.publicKey →
    Bootstraps crypto ticket identity epochKey clk group mode := by
  intro h
  obtain ⟨reg, hreg, _⟩ := h _ pairTicket outsider (zeroBytes 128) ⟨5, 5000000⟩ _ .full
    signedGroup_verified signedGroup_foreign
  obtain ⟨e, he⟩ := joinRegistrar_foreign .full signedGroup_verified signedGroup_foreign
  rw [hreg] at he
  cases he

end Outsider

end YumiBrowser.Client
