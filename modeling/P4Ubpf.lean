import P4Ubpf.Assume
import P4Ubpf.PoolSound
import P4Ubpf.AdjustSound
import P4Ubpf.CommandSound
import P4Ubpf.Sender
import P4Ubpf.Tables
import P4Ubpf.LinkSound
import P4Ubpf.ReapSound
import P4Ubpf.UnlinkSound
import P4Ubpf.ScanSound
import P4Ubpf.CycleSound
import P4Ubpf.Seen
import P4Ubpf.RegistrationSound
import P4Ubpf.Agent
import P4Ubpf.Window
import P4Ubpf.WindowSound
import P4Ubpf.SilenceSound
import P4Ubpf.HonestSound
import P4Ubpf.ReplaySound
import P4Ubpf.Payload
import P4Ubpf.Words
import P4Ubpf.ProcFiles
import P4Ubpf.NicStatSound
import P4Ubpf.Scanf
import P4Ubpf.SockstatSound
import P4Ubpf.Decimal
import P4Ubpf.Bytes
import P4Ubpf.AgentMain
import P4Ubpf.MessageSound
import P4Ubpf.RoundSound
import P4Ubpf.ReaderSound
import P4Ubpf.LoopSound
import P4Ubpf.FrozenSound
import P4Ubpf.TaskSound
import P4Ubpf.TraceSound
import P4Ubpf.SpareSound
import P4Ubpf.Lease
import P4Ubpf.LeaseSound
import P4Ubpf.Machine
import P4Ubpf.MachineSound
import P4Ubpf.BypassSound
import P4Ubpf.OrphanSound
import P4Ubpf.RequestSound
import P4Ubpf.StepwiseSound
