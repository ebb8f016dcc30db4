import QkdEkm.Ekm.Permanence
import QkdEkm.Ekm.Release
import QkdEkm.Ekm.Rekey
import QkdEkm.Ekm.Conserve
import QkdEkm.Ekm.Expiry
import QkdEkm.Ekm.Recovery
import QkdEkm.Ekm.Refine
import QkdEkm.Ekm.Rotate
import QkdEkm.Ekm.Daemon
import QkdEkm.Ekm.Indicator
import QkdEkm.Ekm.Units
import QkdEkm.Ekm.Refusals
import QkdEkm.Ekm.Service
import QkdEkm.Model.Checked
import QkdEkm.Model.Depth
import QkdEkm.Model.Fresh
import QkdEkm.Model.Edges
import QkdEkm.Vpn.Supersede
import QkdEkm.Vpn.Addresses
import QkdEkm.Vpn.Sections
import QkdEkm.Vpn.Nodes
import QkdEkm.Vpn.Timers
import QkdEkm.Vpn.Requests
import QkdEkm.Vpn.EkmClient
import QkdEkm.Client.Rekey
import QkdEkm.Qkdsim.Retrieve
import QkdEkm.Qkd.Delivery
import QkdEkm.Scripts.Redact
import QkdEkm.Scripts.Transcript
import QkdEkm.Common.Auth
import QkdEkm.Qkdsim.Accounting
import QkdEkm.Upload.Names
import QkdEkm.Upload.Objects
import QkdEkm.Scripts.ModelChecks
import QkdEkm.Scripts.Merge
import QkdEkm.Scripts.Clean
import QkdEkm.Scripts.Prefix
import QkdEkm.Scripts.Twice
import QkdEkm.Scripts.Settled
import QkdEkm.Scripts.Publish
import QkdEkm.Model.Rows
import QkdEkm.Model.Ready
import QkdEkm.Scripts.Calibrate
import QkdEkm.Client.Commands
import QkdEkm.Client.Secrecy
import QkdEkm.Client.Tidy
import QkdEkm.Vpn.Host
